import Ti3.Library.Cursor
import Ti3.Fat.Image

namespace Ti3.Fat.Iterator

open Library.CString Library.CMemory Library.Interaction Library.Determinism Library.Cursor
open Library.Rules DriveLs Image

/-- The state of an iterator, and how many names have come into being. -/
abbrev Place := DirEntryIteratorState × Nat

/-- Where the current entry is. -/
def offset (st : DirEntryIteratorState) : Nat :=
  (st.clusterOffset + st.entryNr.toUInt32 * 32).toNat

def examineEntry (drive : Drive) (st : DirEntryIteratorState) (n : Nat) :
    Verdict Place FatDirInfo Exit :=
  match drive.image[offset st + 11]? with
  | none => .fail readError
  | some attr =>
    if attr &&& 0x08 ≠ 0 then .skip (st, n)
    else match slotAt drive.image (offset st) with
      | none => .fail readError
      | some s =>
        if s.first = 0 then .stop ({ st with entryNr := st.entryNr - 1 }, n + 2)
        else if s.Sentinel then .stop (st, n + 1)
        else .give (s.entry (drive.names n)) (st, n + 1)

/-- What one step of the iterator makes of the next entry. -/
def examine (drive : Drive) (info : FatInfo) : Place → Verdict Place FatDirInfo Exit :=
  fun (st, n) =>
    let st := { st with entryNr := st.entryNr + 1 }
    if st.entryNr ≠ st.maxEntryCnt then examineEntry drive st n
    else if st.isRootDir then .stop (st, n + 1)
    else if info.bytsPerSec = 0 then .fail .fault
    else match fatEntry drive.image info st.clusterNr with
      | none => .fail readError
      | some c =>
        if isEoc c then .stop (st, n + 1)
        else examineEntry drive { st with
          clusterNr := c, clusterOffset := clusterToSec info c, entryNr := -1 } n

variable {drive : Drive} {info : FatInfo} {st st' : DirEntryIteratorState} {w w' : World}
variable {n : Nat} {e : FatDirInfo}

theorem examineEntry_label {attr : UInt8} (ha : drive.image[offset st + 11]? = some attr)
    (hl : attr &&& 0x08 ≠ 0) : examineEntry drive st n = .skip (st, n) := by
  simp only [examineEntry, ha, if_pos hl]

theorem examineEntry_slot {s : Slot} (hs : slotAt drive.image (offset st) = some s)
    (hattr : s.attr &&& 0x08 = 0) : examineEntry drive st n =
      if s.first = 0 then .stop ({ st with entryNr := st.entryNr - 1 }, n + 2)
      else if s.Sentinel then .stop (st, n + 1)
      else .give (s.entry (drive.names n)) (st, n + 1) := by
  simp only [examineEntry, (slotAt_eq.mp hs).1, if_neg (not_not.mpr hattr), hs]

theorem examineEntry_missing (hl : ∀ attr, drive.image[offset st + 11]? = some attr →
    attr &&& 0x08 = 0) (hs : slotAt drive.image (offset st) = none) :
    examineEntry drive st n = .fail readError := by
  rw [examineEntry]
  cases ha : drive.image[offset st + 11]? with
  | none => rfl
  | some attr => simp only [if_neg (not_not.mpr (hl attr ha)), hs]

/-- A step as a verdict describes it. -/
def Behaves (drive : Drive) (w : World)
    (p : Process (DirEntryIteratorState ⊕ (FatDirInfo × DirEntryIteratorState))) :
    Verdict Place FatDirInfo Exit → Prop
  | .skip (st, n) => Runs (handled (perform drive)) p w (.returned (.inl st)) (w.after n)
  | .give e (st, n) => isNoMoreEntries e = false ∧
      Runs (handled (perform drive)) p w (.returned (.inr (e, st))) (w.after n)
  | .stop (st, n) => ∃ e, isNoMoreEntries e = true ∧
      Runs (handled (perform drive)) p w (.returned (.inr (e, st))) (w.after n)
  | .fail x => ∃ w', Runs (handled (perform drive)) p w (.halted x) w'

theorem load_entry {s : Slot} (hs : s.name ≠ []) (m : Buffer nameBytes) :
    (s.entry m).name.load start = some s.first := by
  obtain ⟨b, t, hb⟩ := List.exists_cons_of_ne_nil hs
  obtain ⟨u, hu⟩ := lineUpTo_cons 10 b t
  simp [Slot.entry, Buffer.fill, Buffer.load, start, Slot.first, hb, hu, nameBytes]

theorem isNoMoreEntries_entry {s : Slot} {m : Buffer nameBytes} :
    isNoMoreEntries (s.entry m) = decide (s.Sentinel) := rfl

theorem noMoreEntries_runs (drive : Drive) (w : World) : ∃ e, isNoMoreEntries e = true ∧
    Runs (handled (perform drive)) noMoreEntries w (.returned e) (w.after (w.entries + 1)) :=
  ⟨⟨drive.names w.entries, noMoreEntriesAttr, noMoreEntriesFcl⟩, rfl, runs_call rfl runs_done⟩

/-- An entry that has been read is the end, or is passed over, or is returned. -/
theorem slot_behaves {s : Slot} {p : Process _} (hs : slotAt drive.image (offset st) = some s)
    (hp : ∀ o w', Runs (handled (perform drive)) (do
      let curEntry ← readDirEntry (offset st)
      let first ← access (curEntry.name.load start)
      if plainChar first = 0 then
        return .inr (← noMoreEntries, { st with entryNr := st.entryNr - 1 })
      else if plainChar first = 0xe5 then return .inl st
      else return .inr (curEntry, st)) w o w' → Runs (handled (perform drive)) p w o w') :
    Behaves drive w p (if s.first = 0 then
      .stop ({ st with entryNr := st.entryNr - 1 }, w.entries + 2)
      else if s.Sentinel then .stop (st, w.entries + 1)
      else .give (s.entry (drive.names w.entries)) (st, w.entries + 1)) := by
  have hrest (o : Outcome Exit _) (w' : World) (hr : Runs (handled (perform drive))
      (if s.first = 0 then do
        return .inr (← noMoreEntries, { st with entryNr := st.entryNr - 1 })
      else return .inr (s.entry (drive.names w.entries), st)) (w.after (w.entries + 1)) o w') :
      Runs (handled (perform drive)) p w o w' := by
    have hne : plainChar s.first ≠ 0xe5 := by
      have h := plainChar_lt s.first
      omega
    refine hp _ _ (runs_next (readDirEntry_runs hs) ?_)
    rw [load_entry (slot_name hs), access, Program.pure_eq, Program.done_bind, if_neg hne]
    simp only [plainChar_eq_zero]
    exact hr
  by_cases hfirst : s.first = 0
  · simp only [if_pos hfirst] at hrest ⊢
    obtain ⟨e, he, hr⟩ := noMoreEntries_runs drive (w.after (w.entries + 1))
    exact ⟨e, he, hrest _ _ (runs_next hr runs_done)⟩
  · simp only [if_neg hfirst] at hrest ⊢
    by_cases hend : s.Sentinel
    · rw [if_pos hend]
      exact ⟨_, isNoMoreEntries_entry.trans (decide_eq_true hend), hrest _ _ runs_done⟩
    · rw [if_neg hend]
      exact ⟨isNoMoreEntries_entry.trans (decide_eq_false hend), hrest _ _ runs_done⟩

theorem curEntry_behaves : Behaves drive w (curEntry st) (examineEntry drive st w.entries) := by
  have hread : Reads drive (read8 ((offset st : Int) + 11)) drive.image[offset st + 11]? :=
    read8_reads (offset st + 11)
  cases ha : drive.image[offset st + 11]? with
  | none =>
    rw [ha] at hread
    obtain ⟨w', hr⟩ := hread w
    rw [examineEntry_missing (by simp [ha]) (by simp [slotAt, ha])]
    exact ⟨w', (runs_bind _ _ _ _ _).mpr (.halted hr)⟩
  | some attr =>
    rw [ha] at hread
    by_cases hskip : attr &&& 0x08 ≠ 0
    · rw [examineEntry_label ha hskip]
      apply runs_next (hread w)
      rw [if_pos hskip]
      exact runs_done
    · cases hs : slotAt drive.image (offset st) with
      | none =>
        obtain ⟨w', hr⟩ := readDirEntry_halts (w := w) ha hs
        rw [examineEntry_missing (by simpa [ha] using hskip) hs]
        refine ⟨w', runs_next (hread w) ?_⟩
        rw [if_neg hskip]
        exact (runs_bind _ _ _ _ _).mpr (.halted hr)
      | some s =>
        have hattr : s.attr = attr := Option.some.inj ((slotAt_eq.mp hs).1.symm.trans ha)
        rw [examineEntry_slot hs (by rw [hattr]; exact not_not.mp hskip)]
        refine slot_behaves hs (fun o w' hr => runs_next (hread w) ?_)
        rw [if_neg hskip]
        exact hr

theorem behaves_next {α : Type} {p : Process α} {a : α}
    {f : α → Process (DirEntryIteratorState ⊕ (FatDirInfo × DirEntryIteratorState))}
    {v : Verdict Place FatDirInfo Exit}
    (hp : Runs (handled (perform drive)) p w (.returned a) w) (hf : Behaves drive w (f a) v) :
    Behaves drive w (p >>= f) v := by
  cases v with
  | skip p => exact runs_next hp hf
  | give e p => exact ⟨hf.1, runs_next hp hf.2⟩
  | stop p =>
    obtain ⟨e, he, hr⟩ := hf
    exact ⟨e, he, runs_next hp hr⟩
  | fail x =>
    obtain ⟨w', hr⟩ := hf
    exact ⟨w', runs_next hp hr⟩

theorem end_behaves : Behaves drive w (do return .inr (← noMoreEntries, st))
    (.stop (st, w.entries + 1)) := by
  obtain ⟨e, he, hr⟩ := noMoreEntries_runs drive w
  exact ⟨e, he, runs_next hr runs_done⟩

theorem nextDirEntryStep_behaves :
    Behaves drive w (nextDirEntryStep info st) (examine drive info (st, w.entries)) := by
  simp only [nextDirEntryStep, examine]
  by_cases hmax : st.entryNr + 1 = st.maxEntryCnt
  · rw [if_pos hmax, if_neg (not_not.mpr hmax)]
    by_cases hroot : st.isRootDir
    · rw [if_pos hroot, if_pos hroot]
      exact end_behaves
    · rw [if_neg hroot, if_neg hroot]
      by_cases hb : info.bytsPerSec = 0
      · rw [if_pos hb, getNextClusterNr, if_pos hb]
        exact ⟨w, runs_halt⟩
      · rw [if_neg hb]
        have hread := getNextClusterNr_reads drive st.clusterNr hb
        cases hc : fatEntry drive.image info st.clusterNr with
        | none =>
          rw [hc] at hread
          obtain ⟨w', hr⟩ := hread w
          exact ⟨w', (runs_bind _ _ _ _ _).mpr (.halted hr)⟩
        | some c =>
          rw [hc] at hread
          apply behaves_next (hread w)
          by_cases he : isEoc c
          · simp only [if_pos he]
            exact end_behaves
          · simp only [if_neg he]
            exact curEntry_behaves
  · rw [if_neg hmax, if_pos hmax]
    exact curEntry_behaves

theorem step_behaves {v : Verdict Place FatDirInfo Exit}
    (hs : examine drive info (st, w.entries) = v) :
    Behaves drive w (nextDirEntryStep info st) v := hs ▸ nextDirEntryStep_behaves

/-- A call of the iterator as a verdict describes it. -/
def Returns (drive : Drive) (w : World) (p : Process (FatDirInfo × DirEntryIteratorState)) :
    Verdict Place FatDirInfo Exit → Prop
  | .skip _ => False
  | .give e (st, n) => isNoMoreEntries e = false ∧
      Runs (handled (perform drive)) p w (.returned (e, st)) (w.after n)
  | .stop (st, n) => ∃ e, isNoMoreEntries e = true ∧
      Runs (handled (perform drive)) p w (.returned (e, st)) (w.after n)
  | .fail x => ∃ w', Runs (handled (perform drive)) p w (.halted x) w'

theorem nextDirEntry_returns {v : Verdict Place FatDirInfo Exit}
    (h : Finds (examine drive info) (st, w.entries) v) :
    Returns drive w (nextDirEntry info st) v := by
  generalize hp : (st, w.entries) = p at h
  induction h generalizing st w with
  | @skip p p' v hs _ ih =>
    subst hp
    have hstep := step_behaves hs
    have hrest : Returns drive (w.after p'.2) (nextDirEntry info p'.1) v := ih rfl
    cases v with
    | skip _ => exact hrest
    | give e q => exact ⟨hrest.1, loop_next hstep hrest.2⟩
    | stop q =>
      obtain ⟨e, he, hr⟩ := hrest
      exact ⟨e, he, loop_next hstep hr⟩
    | fail x =>
      obtain ⟨w', hr⟩ := hrest
      exact ⟨w', loop_next hstep hr⟩
  | give hs =>
    subst hp
    exact ⟨(step_behaves hs).1, loop_stop (step_behaves hs).2 runs_done⟩
  | stop hs =>
    subst hp
    obtain ⟨e, he, hr⟩ := step_behaves hs
    exact ⟨e, he, loop_stop hr runs_done⟩
  | fail hs =>
    subst hp
    obtain ⟨w', hr⟩ := step_behaves hs
    exact ⟨w', loop_halted hr⟩

/-- A call that finds nothing never comes back. -/
theorem nextDirEntry_cut (h : ∀ v, ¬Finds (examine drive info) (st, w.entries) v) :
    Guarantees (handled (perform drive)) (nextDirEntry info st) w (fun o _ => o = .cut) := by
  refine guarantees_loop (fun st w => ∀ v, ¬Finds (examine drive info) (st, w.entries) v) h
    (fun st w hj o w' hr => ?_)
  by_cases ho : o = .cut
  · rw [ho]
    exact rfl
  · cases hs : examine drive info (st, w.entries) with
    | skip p =>
      obtain ⟨rfl, rfl⟩ := runs_deterministic _ _ hr (step_behaves hs) ho nofun
      exact fun v hf => hj v (.skip hs hf)
    | give e p => exact absurd (.give hs) (hj _)
    | stop p => exact absurd (.stop hs) (hj _)
    | fail x => exact absurd (.fail hs) (hj _)

/-- A call that has returned has found what it returns. -/
theorem nextDirEntry_finds
    (h : Runs (handled (perform drive)) (nextDirEntry info st) w (.returned (e, st')) w') :
    ∃ n, w' = w.after n ∧
      ((isNoMoreEntries e = false ∧
        Finds (examine drive info) (st, w.entries) (.give e (st', n))) ∨
      (isNoMoreEntries e = true ∧
        Finds (examine drive info) (st, w.entries) (.stop (st', n)))) := by
  by_cases hv : ∃ v, Finds (examine drive info) (st, w.entries) v
  · obtain ⟨v, hv⟩ := hv
    have hret := nextDirEntry_returns hv
    cases v with
    | skip p => exact absurd hret id
    | give e' p =>
      obtain ⟨he, hr⟩ := hret
      obtain ⟨hc, rfl⟩ := runs_deterministic _ _ h hr nofun nofun
      cases hc
      exact ⟨p.2, rfl, .inl ⟨he, hv⟩⟩
    | stop p =>
      obtain ⟨e', he, hr⟩ := hret
      obtain ⟨hc, rfl⟩ := runs_deterministic _ _ h hr nofun nofun
      cases hc
      exact ⟨p.2, rfl, .inr ⟨he, hv⟩⟩
    | fail x =>
      obtain ⟨w'', hr⟩ := hret
      cases (runs_deterministic _ _ h hr nofun nofun).1
  · cases nextDirEntry_cut (not_exists.mp hv) _ _ h

/-- The entries that successive calls return before the end sentinel, each with
the state of the iterator behind it. -/
inductive Calls (drive : Drive) (info : FatInfo) (st : DirEntryIteratorState) (w : World) :
    List (FatDirInfo × DirEntryIteratorState) → DirEntryIteratorState → World → Prop
  | start : Calls drive info st w [] st w
  | next {es st₁ w₁ e st₂ w₂} : Calls drive info st w es st₁ w₁ →
      Runs (handled (perform drive)) (nextDirEntry info st₁) w₁ (.returned (e, st₂)) w₂ →
      isNoMoreEntries e = false → Calls drive info st w (es ++ [(e, st₂)]) st₂ w₂

/-- The next call returns the end sentinel. -/
def Finished (drive : Drive) (info : FatInfo) (st : DirEntryIteratorState) (w : World) : Prop :=
  ∃ e st' w', isNoMoreEntries e = true ∧
    Runs (handled (perform drive)) (nextDirEntry info st) w (.returned (e, st')) w'

theorem finished_iff : Finished drive info st w ↔
    ∃ p, Finds (examine drive info) (st, w.entries) (.stop p) := by
  constructor
  · rintro ⟨e, st', w', he, hr⟩
    obtain ⟨n, -, ⟨h, -⟩ | ⟨-, hf⟩⟩ := nextDirEntry_finds hr
    · rw [he] at h
      cases h
    · exact ⟨_, hf⟩
  · rintro ⟨p, hf⟩
    obtain ⟨e, he, hr⟩ := nextDirEntry_returns hf
    exact ⟨e, _, _, he, hr⟩

theorem calls_gives {es : List (FatDirInfo × DirEntryIteratorState)}
    (h : Calls drive info st w es st' w') :
    ∃ gs, Gives (examine drive info) (st, w.entries) gs (st', w'.entries) ∧
      es = gs.map (fun g => (g.1, g.2.1)) ∧ w' = w.after w'.entries := by
  induction h with
  | start => exact ⟨[], .start, rfl, rfl⟩
  | next _ hr he ih =>
    obtain ⟨gs, hg, rfl, hw⟩ := ih
    obtain ⟨n, rfl, ⟨-, hf⟩ | ⟨h, -⟩⟩ := nextDirEntry_finds hr
    · exact ⟨gs ++ [_], .next hg hf, by simp, by rw [hw]; rfl⟩
    · rw [he] at h
      cases h

theorem gives_calls {gs : List (FatDirInfo × Place)} {p : Place}
    (h : Gives (examine drive info) (st, w.entries) gs p) :
    Calls drive info st w (gs.map (fun g => (g.1, g.2.1))) p.1 (w.after p.2) := by
  induction h with
  | start => exact .start
  | next _ hf ih =>
    obtain ⟨he, hr⟩ := nextDirEntry_returns (w := w.after _) hf
    rw [List.map_append]
    exact .next ih hr he

theorem calls_produces {es : List FatDirInfo} :
    (∃ gs st' w', Calls drive info st w gs st' w' ∧ Finished drive info st' w' ∧
      gs.map Prod.fst = es) ↔ Produces (examine drive info) (st, w.entries) es := by
  rw [produces_iff]
  constructor
  · rintro ⟨gs, st', w', hc, hfin, rfl⟩
    obtain ⟨hs, hg, rfl, -⟩ := calls_gives hc
    obtain ⟨p, hf⟩ := finished_iff.mp hfin
    exact ⟨hs, _, p, hg, hf, by rw [List.map_map]; rfl⟩
  · rintro ⟨gs, p, q, hg, hf, rfl⟩
    exact ⟨_, _, _, gives_calls hg, finished_iff.mpr ⟨q, hf⟩, by rw [List.map_map]; rfl⟩

end Ti3.Fat.Iterator
