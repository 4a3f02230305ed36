import Ti3.Library.StdioFaults
import Ti3.Mult.MultTest

namespace Ti3.Mult.Faults

open Library.CString Library.CMemory Library.Interaction Library.Rules Library.Determinism
open Library.Faults Library.Stdio Library.StdioFaults MultTest

/-- What is printed about some products. -/
def verdictOn (expected : Int) (factors : List (Int × Int)) : Bytes :=
  verdict (BitVec.ofInt 32 (exactSum factors) = BitVec.ofInt 32 expected)

/-- What has been printed is a part of the verdict on the first products, and of the one on all
products if no read has failed. -/
def Judged (expected : Int) (factors : List (Int × Int)) (out : Bytes) (s : World × Condition) :
    Prop :=
  ∃ done, done <+: factors ∧ (s.2.reading = false → done = factors) ∧ out <+: s.1.out ∧
    s.1.out <+: out ++ verdictOn expected done

variable {disk : Disk} {w w' : World} {s s' : World × Condition} {expected : Int}
variable {factors done : List (Int × Int)} {out content first prog filename l : Bytes}
variable {lines : List Bytes} {status : Nat} {p : Int × Int}

/-- A call that writes nothing to the standard output. -/
def Quiet (s s' : World × Condition) : Prop :=
  s'.1.out = s.1.out ∧ (s'.2 = s.2 ∨ s'.2 = s.2.fail)

/-- Some products have been read, and the others are still to come. -/
structure Reading (factors : List (Int × Int)) (out : Bytes) (v : Buffer maxline × BitVec 32)
    (s : World × Condition) : Prop where
  fine : s.2 = .fine
  out : s.1.out = out
  rest : ∃ done left lines, factors = done ++ left ∧ v.2 = BitVec.ofInt 32 (exactSum done) ∧
    Laid lines s.1.rest ∧ (∀ l ∈ lines, l.length ≤ 48) ∧ List.Forall₂ Product lines left

end Ti3.Mult.Faults
