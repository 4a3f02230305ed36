import Ti3.Library.Embedding
import Ti3.Library.Faults
import Ti3.Library.Stdio

namespace Ti3.Library.StdioFaults

open CString Interaction Determinism Library.Embedding Faults Stdio

/-- A call does what it should do. `ferror` tells of the reads that have failed. -/
def works (disk : Disk) (s : World × Condition) : (c : Call) → Answer c → World × Condition → Prop
  | .ferror, a, s' => a = s.2.reading ∧ s' = s
  | .fopen path, a, s' => perform disk s.1 (.fopen path) = (a, s'.1) ∧
      s'.2 = if a then s.2.opened else s.2
  | c, a, s' => perform disk s.1 c = (a, s'.1) ∧ s'.2 = s.2

/-- A call fails. A failing `fgets` may have read something, and failing output may have been
written in part. -/
def fails (s : World × Condition) : (c : Call) → Answer c → World × Condition → Prop
  | .fopen _, a, s' => a = false ∧ s' = (s.1, s.2.fail)
  | .fgetc, a, s' => a = none ∧ s' = (s.1, .failed true)
  | .fgets _, a, s' => a = none ∧ ∃ k, s' = ({ s.1 with rest := s.1.rest.drop k }, .failed true)
  | .fclose, a, s' => a = eof ∧ s' = (s.1, s.2.fail)
  | .fputs text, a, s' => a = eof ∧ ∃ t, t <+: text ∧
      s' = ({ s.1 with out := s.1.out ++ t }, s.2.fail)
  | .printf text, a, s' => a < 0 ∧ ∃ t, t <+: text ∧
      s' = ({ s.1 with out := s.1.out ++ t }, s.2.fail)
  | .fprintf text, a, s' => a < 0 ∧ ∃ t, t <+: text ∧
      s' = ({ s.1 with errors := s.1.errors ++ t }, s.2.fail)
  | .ferror, _, _ | .array _, _, _ => False

/-- Any call may fail at any time. -/
def flaky (disk : Disk) : Environment Call Answer (World × Condition) :=
  fun s c a s' => works disk s c a s' ∨ fails s c a s'

/-- What has been written comes first. -/
def Extends (w w' : World) : Prop := w.out <+: w'.out

instance : Std.Refl Extends := ⟨fun _ => List.prefix_rfl⟩

instance : IsTrans World Extends := ⟨fun _ _ _ => List.IsPrefix.trans⟩

variable {disk : Disk} {w w' : World} {m : Condition} {s : World × Condition}

theorem fails_faulty {s' : World × Condition} {c : Call} {a : Answer c} (h : fails s c a s') :
    s'.2 ≠ .fine := by
  cases c with
  | fopen | fgetc | fclose =>
    obtain ⟨-, rfl⟩ := h
    exact fun h => by cases h
  | fgets =>
    obtain ⟨-, k, rfl⟩ := h
    exact fun h => by cases h
  | fputs | printf | fprintf =>
    obtain ⟨-, t, -, rfl⟩ := h
    exact fun h => by cases h
  | ferror | array => exact h.elim

theorem works_fine {s' : World × Condition} {c : Call} {a : Answer c}
    (h : works disk (w, .fine) c a s') : perform disk w c = (a, s'.1) ∧ s'.2 = .fine := by
  cases c with
  | ferror =>
    obtain ⟨rfl, rfl⟩ := h
    exact ⟨rfl, rfl⟩
  | fopen path =>
    refine ⟨h.1, h.2.trans ?_⟩
    cases a <;> rfl
  | fgetc | fgets | fclose | fputs | printf | fprintf | array => exact h

theorem flaky_sound (disk : Disk) : Sound (perform disk) (flaky disk) .fine := by
  intro w c a w' h
  obtain h | h := h
  · exact (works_fine h).1
  · exact absurd rfl (fails_faulty h)

theorem flaky_fails {c : Call} {a : Answer c} (hm : m ≠ .fine)
    (h : flaky disk (w, .fine) c a (w', m)) : fails (w, .fine) c a (w', m) := by
  obtain h | h := h
  · exact absurd (works_fine h).2 hm
  · exact h

theorem perform_extends (disk : Disk) (w : World) (c : Call) : Extends w (perform disk w c).2 := by
  cases c with
  | fopen path =>
    simp only [perform]
    cases disk.file path <;> exact List.prefix_rfl
  | fgetc =>
    simp only [perform]
    cases w.rest <;> exact List.prefix_rfl
  | fgets size =>
    simp only [perform]
    cases lineWithin (size - 1) w.rest <;> exact List.prefix_rfl
  | ferror | fclose | fprintf | array => exact List.prefix_rfl
  | fputs | printf => exact List.prefix_append _ _

end Ti3.Library.StdioFaults
