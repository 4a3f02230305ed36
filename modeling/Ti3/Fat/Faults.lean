import Ti3.Library.Faults
import Ti3.Fat.Image

namespace Ti3.Fat.Faults

open Library.CString Library.CMemory Library.Interaction Library.Rules Library.Determinism
open Library.Faults DriveLs Image

/-- A call fails. After a failing read the position may be any. -/
def fails (w : World) : (c : Call) → Answer c → World → Prop
  | .fopen _, a, w' => a = false ∧ w' = w
  | .ftell, a, w' | .fseek _, a, w' => a = -1 ∧ w' = w
  | .fgetc, a, w' | .fgets _, a, w' => a = none ∧ ∃ pos, w' = { w with pos := pos }
  | .name, _, _ | .array _, _, _ | .puts _, _, _ => False

/-- Opening, positioning and reading may fail at any time. It is noted whether they have. -/
def flaky (drive : Drive) : Environment Call Answer (World × Bool) := fun s c a s' =>
  (perform drive s.1 c = (a, s'.1) ∧ s'.2 = s.2) ∨ (fails s.1 c a s'.1 ∧ s'.2 = true)

/-- The same has been given to `puts`. -/
def Printed (w₁ : World) (s : World × Bool) : Prop := s.1.printed = w₁.printed

def Failure (e : Exit) : Prop := ∃ message, e = .status inputErr message

/-- A program that is given up after a failing call. -/
abbrev FailStop {α : Type} (drive : Drive) (p : Process α) : Prop :=
  Survives (perform drive) (flaky drive) false (Stopped Printed Failure) p

variable {α : Type} {drive : Drive} {w w' w₁ : World} {m : Bool} {info : FatInfo}

theorem flaky_sound (drive : Drive) : Sound (perform drive) (flaky drive) false := by
  intro w c a w' h
  obtain ⟨h, -⟩ | ⟨-, h⟩ := h
  · exact h
  · cases h

theorem flaky_fails {c : Call} {a : Answer c} (hm : m ≠ false)
    (h : flaky drive (w, false) c a (w', m)) : fails w c a w' := by
  obtain ⟨-, h⟩ | ⟨h, -⟩ := h
  · exact absurd h hm
  · exact h

theorem err_stopped {message : Bytes} (hm : m ≠ false) (hw : w'.printed = w₁.printed) :
    Guarantees (flaky drive) (err inputErr message : Process α) (w', m)
      (fun o s => s.2 ≠ false ∧ Stopped Printed Failure w₁ o s) :=
  halt_stopped hm hw ⟨message, rfl⟩ (fun _ h => h)

theorem access_failStop (x : Option α) : FailStop drive (access x) := by
  cases x with
  | none => exact survives_halt _
  | some a => exact survives_done a

/-- A call that does not fail. -/
theorem call_failStop {c : Call} {k : Answer c → Process α} (hc : ∀ w a w', ¬ fails w c a w')
    (hk : ∀ a, FailStop drive (k a)) : FailStop drive (.call c k) :=
  survives_call (flaky_sound drive)
    (fun w a w' _ hm h => absurd (flaky_fails hm h) (hc w a w')) hk

/-- A call that is followed by a check of its answer. -/
theorem checked_failStop {c : Call} {failed : Answer c → Prop} [DecidablePred failed]
    {message : Bytes} {k : Answer c → Process α}
    (hc : ∀ w a w', fails w c a w' → failed a ∧ w' = w) (hk : ∀ a, FailStop drive (k a)) :
    FailStop drive (.call c (fun a => if failed a then err inputErr message else k a)) := by
  refine survives_call (flaky_sound drive) (fun w a w' m hm h => ⟨w, .inl rfl, ?_⟩) (fun a => ?_)
  · obtain ⟨ha, rfl⟩ := hc _ _ _ (flaky_fails hm h)
    rw [if_pos ha]
    exact err_stopped hm rfl
  · split
    · exact survives_halt _
    · exact hk a

/-- A read may hand on its failure. -/
theorem readAt_failStop {offset : Int} {read : Process (Option α)}
    (hread : Survives (perform drive) (flaky drive) false
      (fun w₁ o s => Printed w₁ s ∧ (o = .cut ∨ o = .returned none)) read) :
    FailStop drive (readAt offset read) := by
  simp only [readAt, ftell, fseek, library, ask_bind]
  refine checked_failStop (fun _ _ _ h => h) (fun oldOffset => ?_)
  refine checked_failStop (fun _ _ _ h => h) (fun _ => ?_)
  refine survives_bind (survives_mono hread ?_) (fun res => ?_)
  · rintro w₁ o ⟨w', m⟩ hm ⟨hw, rfl | rfl⟩
    · exact ⟨hw, .inl rfl⟩
    · exact err_stopped hm hw
  · cases res with
    | none => exact survives_halt _
    | some res => exact checked_failStop (fun _ _ _ h => h) (fun _ => survives_done res)

theorem read8_failStop (offset : Int) : FailStop drive (read8 offset) := by
  refine readAt_failStop (survives_call (flaky_sound drive)
    (fun w a w' m hm h => ⟨w, .inl rfl, ?_⟩) survives_done)
  obtain ⟨rfl, pos, rfl⟩ := flaky_fails hm h
  exact guarantees_done.mpr ⟨⟨hm, rfl, .inl rfl⟩, hm, rfl, .inr rfl⟩

theorem read16_failStop (offset : Int) : FailStop drive (read16 offset) :=
  stopped_bind (read8_failStop _) (fun _ => stopped_bind (read8_failStop _) (fun _ =>
    survives_done _))

theorem read32_failStop (offset : Int) : FailStop drive (read32 offset) :=
  stopped_bind (read16_failStop _) (fun _ => stopped_bind (read16_failStop _) (fun _ =>
    survives_done _))

theorem readDirEntry_failStop (offset : Int) : FailStop drive (readDirEntry offset) := by
  refine stopped_bind (readAt_failStop ?_) (fun _ => stopped_bind (read8_failStop _) (fun _ =>
    stopped_bind (read16_failStop _) (fun _ => survives_done _)))
  simp only [name, fgetsName, fgets, library, ask_bind]
  refine survives_call (flaky_sound drive) (fun w a w' m hm h => (flaky_fails hm h).elim)
    (fun n => ?_)
  refine survives_call (flaky_sound drive) (fun w a w' m hm h => ⟨w, .inl rfl, ?_⟩)
    (fun line => survives_done _)
  obtain ⟨rfl, pos, rfl⟩ := flaky_fails hm h
  exact guarantees_done.mpr ⟨⟨hm, rfl, .inl rfl⟩, hm, rfl, .inr rfl⟩

theorem noMoreEntries_failStop : FailStop drive noMoreEntries :=
  call_failStop (fun _ _ _ h => h) (fun _ => survives_done _)

theorem getNextClusterNr_failStop (clusterNr : UInt16) :
    FailStop drive (getNextClusterNr info clusterNr) := by
  rw [getNextClusterNr]
  split
  · exact survives_halt _
  · exact read16_failStop _

theorem curEntry_failStop (ditState : DirEntryIteratorState) :
    FailStop drive (curEntry ditState) := by
  refine stopped_bind (read8_failStop _) (fun attr => ?_)
  split
  · exact survives_done _
  · refine stopped_bind (readDirEntry_failStop _) (fun entry => ?_)
    refine stopped_bind (access_failStop _) (fun first => ?_)
    split
    · exact stopped_bind noMoreEntries_failStop (fun _ => survives_done _)
    · split <;> exact survives_done _

theorem nextDirEntryStep_failStop (ditState : DirEntryIteratorState) :
    FailStop drive (nextDirEntryStep info ditState) := by
  have hend (s : DirEntryIteratorState) :
      FailStop drive (do return .inr (← noMoreEntries, s) :
        Process (DirEntryIteratorState ⊕ (FatDirInfo × DirEntryIteratorState))) :=
    stopped_bind noMoreEntries_failStop (fun _ => survives_done _)
  rw [nextDirEntryStep]
  split
  · split
    · exact hend _
    · refine stopped_bind (getNextClusterNr_failStop _) (fun nextClusterNr => ?_)
      split
      · exact hend _
      · exact curEntry_failStop _
  · exact curEntry_failStop _

theorem nextDirEntry_failStop (ditState : DirEntryIteratorState) :
    FailStop drive (nextDirEntry info ditState) :=
  stopped_loop nextDirEntryStep_failStop survives_done

theorem prettyName_failStop (n : Buffer nameBytes) : FailStop drive (prettyName n) := by
  simp only [prettyName, array, library, ask_bind]
  refine call_failStop (fun _ _ _ h => h) (fun outName => ?_)
  exact stopped_bind (access_failStop _) (fun _ => access_failStop _)

theorem findStep_failStop (name : Bytes) (ditState : DirEntryIteratorState) :
    FailStop drive (findStep info name ditState) := by
  refine stopped_bind (nextDirEntry_failStop _) ?_
  rintro ⟨entry, ditState⟩
  dsimp only
  split
  · exact survives_done _
  · split
    · exact survives_done _
    · refine stopped_bind (stopped_bind (prettyName_failStop _) (fun _ => survives_done _))
        (fun found => ?_)
      split <;> exact survives_done _

theorem findPathSecNum_failStop (secNum : UInt32) (name : Bytes) :
    FailStop drive (findPathSecNum info secNum name) :=
  stopped_bind (access_failStop _) (fun _ => stopped_loop (findStep_failStop name) survives_done)

theorem listStep_failStop (ditState : DirEntryIteratorState) :
    FailStop drive (listStep info ditState) := by
  refine stopped_bind (nextDirEntry_failStop _) ?_
  rintro ⟨entry, ditState⟩
  dsimp only
  split
  · exact survives_done _
  · refine stopped_bind (prettyName_failStop _) (fun string => ?_)
    exact call_failStop (fun _ _ _ h => h) (fun _ => survives_done _)

theorem list_failStop (secNum : UInt32) : FailStop drive (list info secNum) :=
  stopped_bind (access_failStop _) (fun _ => stopped_loop listStep_failStop survives_done)

theorem lsStep_failStop {n : Nat} (x : UInt32 × Buffer n × Pointer) :
    FailStop drive (lsStep info x) := by
  obtain ⟨secNum, memory, path⟩ := x
  refine stopped_bind (access_failStop _) (fun string => ?_)
  split
  · exact stopped_bind (list_failStop _) (fun _ => survives_done _)
  · refine stopped_bind (access_failStop _) (fun subPath => ?_)
    refine stopped_bind (access_failStop _) (fun memory => ?_)
    refine stopped_bind (access_failStop _) (fun name => ?_)
    refine stopped_bind (findPathSecNum_failStop _ _) (fun pathSecNum => ?_)
    split
    · exact survives_halt _
    · exact survives_done _

theorem ls_failStop {n : Nat} (secNum : UInt32) (memory : Buffer n) (path : Pointer) :
    FailStop drive (ls info secNum memory path) := stopped_loop lsStep_failStop survives_done

theorem readFatSize_failStop (fatsz16 : UInt16) : FailStop drive (readFatSize fatsz16) := by
  rw [readFatSize]
  split
  · exact survives_done _
  · exact read32_failStop _

theorem readFatInfo_failStop : FailStop drive readFatInfo := by
  refine stopped_bind (read16_failStop _) (fun bytsPerSec => ?_)
  refine stopped_bind (read8_failStop _) (fun secPerClus => ?_)
  refine stopped_bind (read16_failStop _) (fun rsvdSecCnt => ?_)
  refine stopped_bind (read8_failStop _) (fun numFATs => ?_)
  refine stopped_bind (read16_failStop _) (fun rootEntCnt => ?_)
  refine stopped_bind (read16_failStop _) (fun fatsz16 => ?_)
  refine stopped_bind (readFatSize_failStop _) (fun fatSize => ?_)
  split
  · exact survives_halt _
  · exact survives_done _

theorem main_failStop (drive : Drive) (argv : List Bytes) : FailStop drive (main argv) := by
  simp only [main, fopen, library, ask_bind]
  refine survives_call (flaky_sound drive) (fun w a w' m hm h => ⟨w, .inl rfl, ?_⟩) (fun a => ?_)
  · obtain ⟨rfl, rfl⟩ := flaky_fails hm h
    exact err_stopped hm rfl
  · cases a with
    | false => exact survives_halt _
    | true =>
      refine stopped_bind readFatInfo_failStop (fun info => ?_)
      split
      · exact ls_failStop _ _ _
      · exact ls_failStop _ _ _
      · exact survives_halt _

/-- What has been printed comes first. -/
def Extends (w w' : World) : Prop := w.printed <+: w'.printed

instance : Std.Refl Extends := ⟨fun _ => List.prefix_rfl⟩

instance : IsTrans World Extends := ⟨fun _ _ _ => List.IsPrefix.trans⟩

theorem perform_extends (drive : Drive) (w : World) (c : Call) :
    Extends w (perform drive w c).2 := by
  cases c with
  | fopen | ftell | name | array => exact List.prefix_rfl
  | fseek offset =>
    simp only [perform]
    split <;> exact List.prefix_rfl
  | fgetc | fgets size =>
    simp only [perform]
    split <;> exact List.prefix_rfl
  | puts string => exact List.prefix_append _ _

/-- On any image, and whatever fails, the names printed are ones that are printed without the
failure, in the same order, and a failure ends in an error. -/
theorem main_aborts (drive : Drive) (argv : List Bytes) (w : World) :
    Guarantees (flaky drive) (main argv) (w, false) (fun o s =>
      (∃ o₁ w₁, Runs (handled (perform drive)) (main argv) w o₁ w₁ ∧
        s.1.printed = w₁.printed) ∧
      (∀ o' w', Runs (handled (perform drive)) (main argv) w o' w' → o' ≠ .cut →
        s.1.printed <+: w'.printed ∧ (s.2 = false → o ≠ .cut → o = o' ∧ s.1 = w')) ∧
      (s.2 = true → o = .cut ∨ ∃ message, o = .halted (.status inputErr message))) := by
  intro o s hrun
  refine ⟨?_, fun o' w' hr ho' => ?_, fun hs => ?_⟩
  · obtain ⟨-, hr⟩ | ⟨-, w₁, hr, hprinted, -⟩ := main_failStop drive argv w o s hrun
    · exact ⟨o, s.1, hr, rfl⟩
    · exact ⟨.cut, w₁, hr, hprinted⟩
  · obtain ⟨-, hpart, hend⟩ | ⟨hs, w₁, hpart, hprinted, -⟩ :=
      survives_outcome (perform_extends drive) (main_failStop drive argv) hr ho' o s hrun
    · exact ⟨hpart, fun _ => hend⟩
    · refine ⟨?_, fun hfine => absurd hfine hs⟩
      have hprinted : s.1.printed = w₁.printed := hprinted
      rw [hprinted]
      exact hpart
  · obtain ⟨hfine, -⟩ | ⟨-, w₁, -, -, rfl | ⟨e, rfl, message, rfl⟩⟩ :=
      main_failStop drive argv w o s hrun
    · rw [hs] at hfine
      cases hfine
    · exact .inl rfl
    · exact .inr ⟨message, rfl⟩

end Ti3.Fat.Faults
