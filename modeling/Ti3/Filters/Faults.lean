import Ti3.Library.StdioFaults
import Ti3.Filters.Cat
import Ti3.Filters.Wc

namespace Ti3.Filters.Faults

open Library.CString Library.CMemory Library.Interaction Library.Rules Library.Determinism
open Library.Faults Library.Stdio Library.StdioFaults

variable {α : Type} {disk : Disk} {w w' w₁ : World} {m : Condition} {s : World × Condition}

def Written (w₁ : World) (s : World × Condition) : Prop := s.1.out <+: w₁.out

def Failure : Exit → Prop
  | .status code _ => code ≠ 0
  | .fault => False

/-- No more has been written, and the process ends with an error if at all. -/
abbrev Aborts (w₁ : World) (o : Outcome Exit α) (s : World × Condition) : Prop :=
  Stopped Written Failure w₁ o s

section aborts

variable {code : Nat} {message : Bytes}

theorem err_stopped {E : Outcome Exit α → World × Condition → Prop} (hs : s.2 ≠ .fine)
    (hout : s.1.out <+: w₁.out) (hcode : code ≠ 0) (hE : ∀ o, Aborts w₁ o s → E o s) :
    Guarantees (flaky disk) (err code message) s (fun o s' => s'.2 ≠ .fine ∧ E o s') :=
  halt_stopped hs hout hcode hE

/-- A failing read is noticed by `ferror`. -/
theorem ferror_stopped {E : Outcome Exit Unit → World × Condition → Prop} {p : Process Unit}
    (hout : w.out <+: w₁.out) (hcode : code ≠ 0)
    (hE : ∀ o, Aborts w₁ o (w, .failed true) → E o (w, .failed true)) :
    Guarantees (flaky disk) (do if ← ferror then err code message else p) (w, .failed true)
      (fun o s' => s'.2 ≠ .fine ∧ E o s') := by
  have hfaulty : Condition.failed true ≠ .fine := fun h => by cases h
  refine guarantees_call.mpr ⟨⟨hfaulty, hE _ ⟨hout, .inl rfl⟩⟩, fun a s h => ?_⟩
  obtain ⟨rfl, rfl⟩ | h := h
  · exact err_stopped hfaulty hout hcode hE
  · exact h.elim

end aborts

/-- How a run ends in comparison to the one without faults, which ends with `o'` in `w'`. -/
structure FailStop (o' : Outcome Exit Unit) (w' : World) (o : Outcome Exit Unit)
    (s : World × Condition) : Prop where
  written : s.1.out <+: w'.out
  fine : s.2 = .fine → o ≠ .cut → o = o' ∧ s.1 = w'
  faulty : s.2 ≠ .fine → o = .cut ∨ ∃ e, o = .halted e ∧ Failure e

section cat

open Cat

end cat

section wc

open Wc

/-- No more has been written, and a process that could not read ends with an error. -/
def Reported (w₁ : World) (o : Outcome Exit Unit) (s : World × Condition) : Prop :=
  s.1.out <+: w₁.out ∧ (s.2.reading = true → o = .cut ∨ ∃ e, o = .halted e ∧ Failure e)

theorem aborts_reported {o : Outcome Exit Unit} (h : Aborts w₁ o s) : Reported w₁ o s :=
  ⟨h.1, fun _ => h.2⟩

theorem report_survives (c : State) :
    Survives (perform disk) (flaky disk) .fine Reported (report c) := by
  simp only [report, ferror, printf, library, ask_bind]
  refine survives_call (flaky_sound disk) (fun w a w' m hm h => (flaky_fails hm h).elim)
    (fun a => ?_)
  cases a with
  | true => exact survives_halt _
  | false =>
    refine survives_call (flaky_sound disk) (fun w a w' m hm h => ⟨_, .inr rfl, ?_⟩)
      (fun a => survives_done _)
    obtain ⟨-, t, ht, hs⟩ := flaky_fails hm h
    obtain ⟨rfl, rfl⟩ := Prod.mk.inj hs
    have hout := (List.prefix_append_right_inj w.out).mpr ht
    exact guarantees_done.mpr
      ⟨⟨hm, hout, fun h => by cases h⟩, hm, hout, fun h => by cases h⟩

theorem wcStep_survives (c : State) :
    Survives (perform disk) (flaky disk) .fine (leave (flaky disk) .fine Reported report)
      (wcStep c) := by
  rw [wcStep_eq]
  refine survives_call (flaky_sound disk) (fun w a w' m hm h => ⟨w, .inl rfl, ?_⟩) (fun a => ?_)
  · obtain ⟨rfl, hs⟩ := flaky_fails hm h
    obtain ⟨rfl, rfl⟩ := Prod.mk.inj hs
    refine guarantees_done.mpr ⟨⟨hm, List.prefix_rfl, fun _ => .inl rfl⟩, hm, ?_⟩
    exact ferror_stopped List.prefix_rfl (by decide) (fun _ => aborts_reported)
  · cases a with
    | none | some => exact survives_done _

theorem wc_survives (disk : Disk) : Survives (perform disk) (flaky disk) .fine Reported wc :=
  survives_loop wcStep_survives report_survives

/-- After a failing `printf` the file is closed all the same. -/
theorem fclose_reported {message : Bytes} (hs : s.2 ≠ .fine) (h : Reported w₁ (.returned ()) s) :
    Guarantees (flaky disk) (do if (← fclose) = eof then err inputError message) s
      (fun o s' => s'.2 ≠ .fine ∧ Reported w₁ o s') := by
  have hreading : s.2.reading ≠ true := by
    intro hreading
    obtain h | ⟨e, h, -⟩ := h.2 hreading <;> cases h
  refine guarantees_call.mpr ⟨⟨hs, h.1, fun h => absurd h hreading⟩, fun a s' ha => ?_⟩
  obtain ⟨ha, hs'⟩ | ⟨rfl, rfl⟩ := ha
  · obtain ⟨rfl, hw⟩ := Prod.mk.inj ha
    have hout : s'.1.out <+: w₁.out := by
      rw [← hw]
      exact h.1
    have hreading' : s'.2.reading ≠ true := by
      rw [hs']
      exact hreading
    have hfaulty : s'.2 ≠ .fine := by
      rw [hs']
      exact hs
    exact guarantees_done.mpr ⟨⟨hfaulty, hout, fun h => absurd h hreading'⟩, hfaulty, hout,
      fun h => absurd h hreading'⟩
  · exact err_stopped (fun h => by cases h) h.1 (by decide) (fun _ => aborts_reported)

theorem wc_main_survives (disk : Disk) (argv : List Bytes) :
    Survives (perform disk) (flaky disk) .fine Reported (main argv) := by
  rw [main.eq_def]
  split
  · exact wc_survives disk
  · simp only [fopen, library, ask_bind]
    refine survives_call (flaky_sound disk) (fun w a w' m hm h => ⟨w, .inl rfl, ?_⟩) (fun a => ?_)
    · obtain ⟨rfl, hs⟩ := flaky_fails hm h
      obtain ⟨rfl, rfl⟩ := Prod.mk.inj hs
      exact err_stopped hm List.prefix_rfl (by decide) (fun _ => aborts_reported)
    · cases a with
      | false => exact survives_halt _
      | true =>
        refine survives_bind (survives_mono (wc_survives disk) ?_) (fun _ => ?_)
        · intro w₁ o s hs h
          cases o with
          | cut | halted => exact h
          | returned => exact fclose_reported hs h
        · simp only [fclose, library, ask_bind]
          refine survives_call (flaky_sound disk) (fun w a w' m hm h => ⟨w, .inl rfl, ?_⟩)
            (fun a => ?_)
          · obtain ⟨rfl, hs⟩ := flaky_fails hm h
            obtain ⟨rfl, rfl⟩ := Prod.mk.inj hs
            exact err_stopped hm List.prefix_rfl (by decide) (fun _ => aborts_reported)
          · split
            · exact survives_halt _
            · exact survives_done _
  · exact survives_halt _

theorem wc_main_ends (disk : Disk) (argv : List Bytes) (w : World) : ∃ o w', o ≠ .cut ∧
    Runs (handled (perform disk)) (main argv) w o w' := by
  rw [main.eq_def]
  have hwc (w : World) : ∃ w', Runs (handled (perform disk)) wc w (.returned ()) w' :=
    ⟨_, .next (wcStep_iterates .start rfl) (report_runs disk _)⟩
  split
  · obtain ⟨w', hr⟩ := hwc w
    exact ⟨_, w', (fun h => by cases h), hr⟩
  · next prog path more =>
    cases hs : disk.file path with
    | none =>
      have hopen : perform disk w (.fopen path) = (false, w) := by simp only [perform, hs]
      exact ⟨_, w, (fun h => by cases h), runs_call hopen runs_halt⟩
    | some content =>
      have hopen : perform disk w (.fopen path) = (true, { w with rest := content }) := by
        simp only [perform, hs]
      obtain ⟨w', hr⟩ := hwc { w with rest := content }
      have hclose : Runs (handled (perform disk)) (do
          if (← fclose) = eof then err inputError (ascii "Error closing file")) w' (.returned ())
          w' := runs_call rfl runs_done
      refine ⟨.returned (), w', (fun h => by cases h), ?_⟩
      simp only [fopen, library, ask_bind]
      apply runs_call hopen
      rw [if_pos rfl]
      exact runs_next hr hclose
  · exact ⟨_, w, (fun h => by cases h), runs_halt⟩

/-- Whatever fails, no wrong number is printed, and a failing read ends in an error. -/
theorem wc_reports (disk : Disk) (argv : List Bytes) (w : World) : ∃ o' w', o' ≠ .cut ∧
    Runs (handled (perform disk)) (main argv) w o' w' ∧
    (∀ content : Bytes, content.length < 2 ^ 31 → (∃ prog, argv = [prog] ∧ w.rest = content) ∨
      (∃ prog path more, argv = prog :: path :: more ∧ disk.file path = some content) →
      o' = .returned () ∧ w'.out = w.out ++
        summary (content.count newline) (words content) content.length) ∧
    Guarantees (flaky disk) (main argv) (w, .fine) (fun o s => s.1.out <+: w'.out ∧
      (s.2 = .fine → o ≠ .cut → o = o' ∧ s.1 = w') ∧
      (s.2.reading = true → o = .cut ∨ ∃ e, o = .halted e ∧ Failure e)) := by
  obtain ⟨o', w', ho', hr⟩ := wc_main_ends disk argv w
  refine ⟨o', w', ho', hr, fun content hlength hin => ?_, ?_⟩
  · have hr' := main_runs (w := w) hlength hin
    obtain ⟨rfl, rfl⟩ := runs_deterministic _ _ hr hr' ho' (fun h => by cases h)
    exact ⟨rfl, rfl⟩
  · refine guarantees_mono (survives_outcome (perform_extends disk) (wc_main_survives disk argv)
      hr ho') (fun o s h => ?_)
    obtain ⟨hs, hout, hend⟩ | ⟨hs, w₁, hw₁, hout, hend⟩ := h
    · refine ⟨hout, fun _ => hend, fun hreading => ?_⟩
      rw [hs] at hreading
      cases hreading
    · exact ⟨hout.trans hw₁, fun h => absurd h hs, hend⟩

end wc

end Ti3.Filters.Faults
