import Ti3.Crc.Calls
import Ti3.Crc.RoundTrip
import Ti3.Library.Execution

namespace Ti3.Crc.Bounds

open Library.CString Library.Interaction Library.Rules Library.Determinism Library.Calls
open Library.Execution Tool FileSystem Remainder Checksum Calls

variable {w : World} {F : Name} {e : Bytes}

/-- The variable `yet_to_read_cnt` of `validate`, for a size. -/
def yetToReadCnt (filesize : Int) : Int :=
  toInt (filesize - (filesize - checksumByteCnt).tdiv bufsize * bufsize - checksumByteCnt)

theorem yetToReadCnt_eq (h₂ : 2 ≤ e.length) (he : e.length < 2 ^ 28) :
    yetToReadCnt e.length = ↑((e.length - 2) % bufsize) := by
  rw [yetToReadCnt, RoundTrip.portionsCnt_eq h₂, RoundTrip.yetToReadCnt_eq h₂ he]

end Ti3.Crc.Bounds
