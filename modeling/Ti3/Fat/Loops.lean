import Ti3.Fat.Iterator

namespace Ti3.Fat.Loops

open Library.CString Library.CMemory Library.Interaction Library.Determinism Library.Cursor
open Library.Rules DriveLs Image Iterator

variable {drive : Drive} {info : FatInfo} {st st' : DirEntryIteratorState} {w w' : World}
variable {name s : Bytes} {n : Nat} {e : FatDirInfo}

/-- The name of an entry as `sprintFilename` writes it, if it does not use a null
pointer. -/
def rendered (drive : Drive) (name : Buffer nameBytes) : Option Bytes :=
  (sprintFilename (drive.array (nameBytes + 1)) name).bind (fun outName => outName.string start)

/-- The entry is a directory with this name. -/
def Matches (drive : Drive) (name : Bytes) (e : FatDirInfo) : Prop :=
  isDirectory e = true ∧ rendered drive e.name = some name

instance : Decidable (Matches drive name e) := inferInstanceAs (Decidable (_ ∧ _))

theorem access_rendered (m : Buffer nameBytes) : (do
    let outName ← access (sprintFilename (drive.array (nameBytes + 1)) m)
    access (outName.string start)) = access (rendered drive m) := by
  rw [rendered]
  cases sprintFilename (drive.array (nameBytes + 1)) m <;> rfl

theorem array_runs (k : Nat) :
    Runs (handled (perform drive)) (array k) w (.returned (drive.array k)) w :=
  runs_call rfl runs_done

theorem prettyName_runs {m : Buffer nameBytes} (h : rendered drive m = some s) :
    Runs (handled (perform drive)) (prettyName m) w (.returned s) w := by
  apply runs_next (array_runs (nameBytes + 1))
  rw [access_rendered, h]
  exact runs_done

theorem prettyName_faults {m : Buffer nameBytes} (h : rendered drive m = none) :
    Runs (handled (perform drive)) (prettyName m) w (.halted .fault) w := by
  apply runs_next (array_runs (nameBytes + 1))
  rw [access_rendered, h]
  exact runs_halt

theorem listStep_stop {p : Place} (h : Finds (examine drive info) (st, w.entries) (.stop p)) :
    Runs (handled (perform drive)) (listStep info st) w (.returned (.inr ())) (w.after p.2) := by
  obtain ⟨e, he, hr⟩ := nextDirEntry_returns h
  apply runs_next hr
  simp only [he, if_true]
  exact runs_done

theorem listStep_prints (h : Finds (examine drive info) (st, w.entries) (.give e (st', n)))
    (hs : rendered drive e.name = some s) :
    Runs (handled (perform drive)) (listStep info st) w (.returned (.inl st'))
      ((w.after n).print [s]) := by
  obtain ⟨he, hr⟩ := nextDirEntry_returns h
  apply runs_next hr
  simp only [he]
  exact runs_next (prettyName_runs hs) (runs_call rfl runs_done)

theorem findStep_stop {p : Place} (h : Finds (examine drive info) (st, w.entries) (.stop p)) :
    Runs (handled (perform drive)) (findStep info name st) w (.returned (.inr noSuchEntry))
      (w.after p.2) := by
  obtain ⟨e, he, hr⟩ := nextDirEntry_returns h
  apply runs_next hr
  simp only [he, if_true]
  exact runs_done

theorem findStep_found (h : Finds (examine drive info) (st, w.entries) (.give e (st', n)))
    (hm : Matches drive name e) :
    Runs (handled (perform drive)) (findStep info name st) w
      (.returned (.inr (clusterToSec info e.fstClusLO))) (w.after n) := by
  obtain ⟨he, hr⟩ := nextDirEntry_returns h
  apply runs_next hr
  simp only [he, hm.1]
  refine runs_next (runs_next (prettyName_runs hm.2) runs_done) ?_
  simp only [decide_true, if_true]
  exact runs_done

/-- Files and directories with other names are left behind. -/
theorem findStep_passes (h : Finds (examine drive info) (st, w.entries) (.give e (st', n)))
    (hs : isDirectory e = true → ∃ s, rendered drive e.name = some s)
    (hm : ¬Matches drive name e) :
    Runs (handled (perform drive)) (findStep info name st) w (.returned (.inl st'))
      (w.after n) := by
  obtain ⟨he, hr⟩ := nextDirEntry_returns h
  apply runs_next hr
  cases hd : isDirectory e with
  | false =>
    simp only [he, hd]
    exact runs_done
  | true =>
    obtain ⟨s, hs⟩ := hs hd
    have hne : s ≠ name := by
      rintro rfl
      exact hm ⟨hd, hs⟩
    simp only [he, hd]
    refine runs_next (runs_next (prettyName_runs hs) runs_done) ?_
    simp only [hne, decide_false]
    exact runs_done

section

variable {γ : Type} {step : DirEntryIteratorState → Process (DirEntryIteratorState ⊕ γ)}
variable {found : FatDirInfo → γ → Prop} {p : Place}

end

end Ti3.Fat.Loops
