import Ti3.Library.Calls
import Ti3.Crc.Tool

namespace Ti3.Crc.Calls

open Library.CString Library.Interaction Library.Calls Tool

section

variable {α : Type} {P : Call → Prop} {k : Process α}

theorem onlyCalls_errIf {failed : Prop} [Decidable failed] {code : Nat} {message : Bytes}
    (hk : OnlyCalls P k) : OnlyCalls P (do errIf failed code message; k) := by
  by_cases hf : failed
  · rw [errIf, if_pos hf]
    trivial
  · rw [errIf, if_neg hf]
    exact hk

theorem onlyCalls_last {failed : Prop} [Decidable failed] {code : Nat} {message : Bytes} :
    OnlyCalls P (errIf failed code message) := by
  rw [errIf]
  split
  · trivial
  · trivial

theorem onlyCalls_check {c : Call} (hc : P c) {failed : Answer c → Prop}
    [∀ a, Decidable (failed a)] {code : Nat} {message : Bytes} (hk : OnlyCalls P k) :
    OnlyCalls P (do errIf (failed (← library c)) code message; k) :=
  ⟨hc, fun _ => onlyCalls_errIf hk⟩

theorem nextBitFrom_calls {s : Statics} {file : Nat} (hc : P (.fgetc file)) :
    OnlyCalls P (nextBitFrom s file) := by
  rw [nextBitFrom]
  split
  · exact ⟨hc, fun _ => trivial⟩
  · trivial

theorem calcCrcRem_calls {s : Statics} {file : Nat} {size : Int} (hseek : P (.fseek file 0 .set))
    (hget : P (.fgetc file)) : OnlyCalls P (calcCrcRem s file size) := by
  refine onlyCalls_check hseek ⟨fun d => ?_, fun _ => trivial⟩
  rw [divisionStep]
  split
  · exact onlyCalls_bind (nextBitFrom_calls hget) (fun _ => trivial)
  · trivial

end

/-- A process ends early with a status. -/
def Orderly (x : Exit) : Prop := ∃ code message, x = .status code message

theorem orderly_status {code : Nat} {message : Bytes} : Orderly (.status code message) :=
  ⟨code, message, rfl⟩

section

variable {F : Name} {α : Type} {k : Process α}

theorem onlyHalts_errIf {failed : Prop} [Decidable failed] {code : Nat} {message : Bytes}
    (hk : OnlyHalts Orderly k) : OnlyHalts Orderly (do errIf failed code message; k) := by
  by_cases hf : failed
  · rw [errIf, if_pos hf]
    exact orderly_status
  · rw [errIf, if_neg hf]
    exact hk

theorem nextBitFrom_orderly {s : Statics} {file : Nat} :
    OnlyHalts Orderly (nextBitFrom s file) := by
  rw [nextBitFrom]
  split
  · exact fun _ => trivial
  · trivial

theorem calcCrcRem_orderly {s : Statics} {file : Nat} {size : Int} :
    OnlyHalts Orderly (calcCrcRem s file size) := by
  refine fun _ => onlyHalts_errIf ⟨fun d => ?_, fun _ => trivial⟩
  rw [divisionStep]
  split
  · exact onlyHalts_bind nextBitFrom_orderly (fun _ => trivial)
  · trivial

theorem remainderTest_orderly : OnlyHalts Orderly (remainderTest F) := by
  intro size
  cases size with
  | none => exact orderly_status
  | some size =>
    intro a
    cases a with
    | error _ => exact orderly_status
    | ok file =>
      exact onlyHalts_bind (p := calcCrcRem .start file size) calcCrcRem_orderly
        (fun _ => trivial)

end

end Ti3.Crc.Calls
