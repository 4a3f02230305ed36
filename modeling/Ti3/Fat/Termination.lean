import Ti3.Fat.Traversal
import Ti3.Fat.Loops

namespace Ti3.Fat.Termination

open Library.CString Library.CMemory Library.Interaction Library.Determinism Library.Cursor
open Library.Rules DriveLs Image Iterator Table Traversal Loops

variable {drive : Drive} {info : FatInfo} {st st' : DirEntryIteratorState} {w w' : World}
variable {k n : Nat} {name : Bytes}

section

variable {N o : Nat} {base : UInt32}

end

end Ti3.Fat.Termination
