import Ti3.Library.Exhaustion
import Ti3.Fat.Traversal

namespace Ti3.Fat.EndSentinel

open Library.CString Library.CMemory Library.Interaction Library.Determinism Library.Cursor
open Library.Exhaustion DriveLs Image Iterator Table Traversal

/-- What comes next: a slot, or the end of the root directory or of a chain. It is
lost if the entry of the cluster in the table cannot be read. -/
inductive Ahead where
  | slot (st : DirEntryIteratorState)
  | ending (st : DirEntryIteratorState)
  | lost
  deriving DecidableEq

def ahead (image : Bytes) (info : FatInfo) (st : DirEntryIteratorState) : Ahead :=
  let st := { st with entryNr := st.entryNr + 1 }
  if st.entryNr ≠ st.maxEntryCnt then .slot st
  else if st.isRootDir then .ending st
  else if info.bytsPerSec = 0 then .lost
  else match fatEntry image info st.clusterNr with
    | none => .lost
    | some c => if isEoc c then .ending st else .slot (turned st info c)

/-- The first byte of an entry that is not a label is zero. -/
def zeroAt (image : Bytes) (st : DirEntryIteratorState) : Bool :=
  (slotAt image (offset st)).any (fun s => s.attr &&& 0x08 = 0 ∧ s.first = 0)

/-- The entry number is put back at a zero, and at no other end. -/
def next (image : Bytes) (info : FatInfo) (st : DirEntryIteratorState) : DirEntryIteratorState :=
  match ahead image info st with
  | .slot s => if zeroAt image s then { s with entryNr := s.entryNr - 1 } else s
  | .ending s => s
  | .lost => st

/-- The states that come one after another. -/
def walk (image : Bytes) (info : FatInfo) (st : DirEntryIteratorState) :
    Nat → DirEntryIteratorState
  | 0 => st
  | i + 1 => next image info (walk image info st i)

/-- Next comes a slot that the iterator passes over or returns. -/
def Entered (image : Bytes) (info : FatInfo) (st : DirEntryIteratorState) : Prop :=
  ∃ s, ahead image info st = .slot s ∧ passed image s.clusterOffset s.entryNr.toNat = true

/-- Next comes a volume label, or a part of a long name. -/
def Label (image : Bytes) (info : FatInfo) (st : DirEntryIteratorState) : Prop :=
  ∃ s, ahead image info st = .slot s ∧
    labelled image s.clusterOffset s.entryNr.toNat = true

/-- Next comes the end, or a slot that is taken for it: its first byte is zero, or
it looks like the sentinel. -/
def Ending (image : Bytes) (info : FatInfo) (st : DirEntryIteratorState) : Prop :=
  (∃ s, ahead image info st = .slot s ∧ Closes image s.clusterOffset s.entryNr.toNat) ∨
    ∃ s, ahead image info st = .ending s

/-- No entry and nothing unreadable comes any more, and not only labels. -/
structure Barren (image : Bytes) (info : FatInfo) (st : DirEntryIteratorState) : Prop where
  passes : ∀ i, Label image info (walk image info st i) ∨ Ending image info (walk image info st i)
  ends : ∀ i, ∃ j, i ≤ j ∧ Ending image info (walk image info st j)

/-- The first end comes behind so many slots. -/
def FirstEnd (image : Bytes) (info : FatInfo) (st : DirEntryIteratorState) (i : Nat) : Prop :=
  Ending image info (walk image info st i) ∧ ∀ j < i, Entered image info (walk image info st j)

/-- Later calls, all of which have returned the end sentinel. -/
inductive Later (drive : Drive) (info : FatInfo) (st : DirEntryIteratorState) (w : World) :
    DirEntryIteratorState → World → Prop
  | start : Later drive info st w st w
  | next {st₁ w₁ e st₂ w₂} : Later drive info st w st₁ w₁ →
      Runs (handled (perform drive)) (nextDirEntry info st₁) w₁ (.returned (e, st₂)) w₂ →
      isNoMoreEntries e = true → Later drive info st w st₂ w₂

/-- Every later call returns the end sentinel. -/
def Stays (drive : Drive) (info : FatInfo) (st : DirEntryIteratorState) (w : World) : Prop :=
  ∀ st₁ w₁, Later drive info st w st₁ w₁ → Finished drive info st₁ w₁

/-- Once an iterator of the directory at `sec` has returned the end sentinel, every
later call returns it. -/
def KeepsEnd (drive : Drive) (info : FatInfo) (sec : UInt32) : Prop :=
  ∀ st₀ w₀ es st₁ w₁ e st w, newDirEntryIterator info sec = some st₀ →
    Calls drive info st₀ w₀ es st₁ w₁ →
    Runs (handled (perform drive)) (nextDirEntry info st₁) w₁ (.returned (e, st)) w →
    isNoMoreEntries e = true → Stays drive info st w

variable {drive : Drive} {info : FatInfo} {st s : DirEntryIteratorState} {w w' : World} {n : Nat}

theorem offset_slotOffset (st : DirEntryIteratorState) :
    offset st = slotOffset st.clusterOffset st.entryNr.toNat := by
  have hnr : UInt32.ofNat st.entryNr.toNat = st.entryNr.toUInt32 := by
    rw [← UInt32.toNat_inj, UInt16.toNat_toUInt32, UInt32.toNat_ofNat', Nat.mod_eq_of_lt]
    have h := st.entryNr.toNat_lt
    omega
  rw [offset, slotOffset, hnr]

/-- A step depends on what comes next. -/
theorem examine_ahead (drive : Drive) (info : FatInfo) (st : DirEntryIteratorState) (n : Nat) :
    examine drive info (st, n) = match ahead drive.image info st with
      | .slot s => examineEntry drive s n
      | .ending s => .stop (s, n + 1)
      | .lost => .fail (if info.bytsPerSec = 0 then .fault else readError) := by
  simp only [examine, ahead]
  by_cases hmax : st.entryNr + 1 = st.maxEntryCnt
  · rw [if_neg (not_not.mpr hmax), if_neg (not_not.mpr hmax)]
    by_cases hroot : st.isRootDir = true
    · rw [if_pos hroot, if_pos hroot]
    · rw [if_neg hroot, if_neg hroot]
      by_cases hb : info.bytsPerSec = 0
      · simp only [if_pos hb]
      · simp only [if_neg hb]
        cases fatEntry drive.image info st.clusterNr with
        | none => rfl
        | some c =>
          by_cases he : isEoc c = true
          · simp only [if_pos he]
          · simp only [if_neg he, turned]
  · rw [if_pos hmax, if_pos hmax]

/-- What the iterator makes of a slot that is taken for the end. -/
theorem examineEntry_zeroAt (drive : Drive)
    (hc : Closes drive.image s.clusterOffset s.entryNr.toNat) (n : Nat) :
    ∃ m, examineEntry drive s n =
      .stop (if zeroAt drive.image s then { s with entryNr := s.entryNr - 1 } else s, m) := by
  obtain ⟨t, ht, hattr, hend⟩ := hc
  rw [← offset_slotOffset] at ht
  rw [examineEntry_slot ht hattr]
  by_cases hfirst : t.first = 0
  · have hzero : zeroAt drive.image s = true := by
      simp [zeroAt, ht, hattr, hfirst]
    exact ⟨n + 2, by rw [if_pos hfirst, hzero, if_pos rfl]⟩
  · have hzero : zeroAt drive.image s = false := by
      simp [zeroAt, ht, hfirst]
    refine ⟨n + 1, ?_⟩
    rw [if_neg hfirst, if_pos (hend.resolve_left hfirst), hzero, if_neg Bool.false_ne_true]

theorem zeroAt_label (hl : labelled drive.image s.clusterOffset s.entryNr.toNat = true) :
    zeroAt drive.image s = false := by
  obtain ⟨attr, ha, hattr⟩ := labelled_eq.mp hl
  rw [← Bool.not_eq_true, zeroAt, Option.any_eq_true]
  rintro ⟨t, ht, hzero⟩
  rw [← offset_slotOffset, (slotAt_eq.mp ht).1] at ha
  cases ha
  exact hattr (of_decide_eq_true hzero).1

theorem label_entered {image : Bytes} (h : Label image info st) : Entered image info st := by
  obtain ⟨s, hs, hl⟩ := h
  exact ⟨s, hs, passed_labelled hl⟩

theorem ending_not_entered {image : Bytes} (h : Ending image info st) :
    ¬Entered image info st := by
  rintro ⟨s, hs, hp⟩
  obtain ⟨t, ht, hc⟩ | ⟨t, ht⟩ := h
  · cases hs.symm.trans ht
    cases hp.symm.trans (closes_unpassed hc)
  · cases hs.symm.trans ht

theorem zeroAt_given {t : Slot}
    (h : given drive.image s.clusterOffset s.entryNr.toNat = some t) :
    zeroAt drive.image s = false := by
  obtain ⟨ht, -, hfirst, -⟩ := given_eq.mp h
  rw [← offset_slotOffset] at ht
  simp [zeroAt, ht, hfirst]

/-- What a step makes of the state. -/
theorem examine_next (drive : Drive) (info : FatInfo) (st : DirEntryIteratorState) (n : Nat) :
    (Label drive.image info st ∧
      examine drive info (st, n) = .skip (next drive.image info st, n)) ∨
    (Entered drive.image info st ∧ ¬Label drive.image info st ∧
      ∃ e, examine drive info (st, n) = .give e (next drive.image info st, n + 1)) ∨
    (Ending drive.image info st ∧
      ∃ m, examine drive info (st, n) = .stop (next drive.image info st, m)) ∨
    ¬Entered drive.image info st ∧ ¬Ending drive.image info st ∧
      ∃ x, examine drive info (st, n) = .fail x := by
  rw [examine_ahead, next, Entered, Label, Ending]
  cases ahead drive.image info st with
  | ending s => exact .inr (.inr (.inl ⟨.inr ⟨s, rfl⟩, n + 1, rfl⟩))
  | lost => simp
  | slot s =>
    simp only [Ahead.slot.injEq, exists_eq_left', reduceCtorEq, exists_false, or_false]
    obtain ⟨hl, h⟩ | ⟨t, ht, h⟩ | ⟨hp, ⟨hc, -⟩ | h⟩ :=
      examineEntry_cases drive (offset_slotOffset s) n
    · rw [zeroAt_label hl]
      exact .inl ⟨hl, h⟩
    · have hl : labelled drive.image s.clusterOffset s.entryNr.toNat ≠ true := fun hl => by
        rw [given_labelled hl] at ht
        cases ht
      rw [zeroAt_given ht]
      exact .inr (.inl ⟨passed_given ht, hl, _, h⟩)
    · exact .inr (.inr (.inl ⟨hc, examineEntry_zeroAt drive hc n⟩))
    · refine .inr (.inr (.inr ⟨by rw [hp]; exact Bool.false_ne_true, fun hc => ?_, _, h⟩))
      obtain ⟨m, hs⟩ := examineEntry_zeroAt drive hc n
      cases h.symm.trans hs

theorem passes_iff : Passes (examine drive info) (st, n) ↔
    Label drive.image info st ∨ Ending drive.image info st := by
  obtain ⟨hl, h⟩ | ⟨he, hl, e, h⟩ | ⟨he, m, h⟩ | ⟨he, hend, x, h⟩ := examine_next drive info st n
  · exact iff_of_true ⟨_, .inl h⟩ (.inl hl)
  · refine iff_of_false ?_ (not_or.mpr ⟨hl, fun hend => ending_not_entered hend he⟩)
    simp [Passes, h]
  · exact iff_of_true ⟨_, .inr h⟩ (.inr he)
  · refine iff_of_false ?_ (not_or.mpr ⟨fun hl => he (label_entered hl), hend⟩)
    simp [Passes, h]

theorem halts_iff : Halts (examine drive info) (st, n) ↔ Ending drive.image info st := by
  obtain ⟨hl, h⟩ | ⟨he, -, e, h⟩ | ⟨he, m, h⟩ | ⟨-, hend, x, h⟩ := examine_next drive info st n
  · refine iff_of_false ?_ (fun hend => ending_not_entered hend (label_entered hl))
    simp [Halts, h]
  · refine iff_of_false ?_ (fun hend => ending_not_entered hend he)
    simp [Halts, h]
  · exact iff_of_true ⟨_, h⟩ he
  · refine iff_of_false ?_ hend
    simp [Halts, h]

/-- The iterator walks on. -/
theorem course_next {p : Place} {i : Nat}
    (h : Passes (examine drive info) (course (examine drive info) p i)) :
    (course (examine drive info) p (i + 1)).1 =
      next drive.image info (course (examine drive info) p i).1 := by
  obtain ⟨-, hs⟩ | ⟨-, -, e, hs⟩ | ⟨-, m, hs⟩ | ⟨-, -, x, hs⟩ := examine_next drive info
    (course (examine drive info) p i).1 (course (examine drive info) p i).2
  · rw [course_skip hs]
  · simp [Passes, hs] at h
  · rw [course_stop hs]
  · simp [Passes, hs] at h

theorem course_walk {i : Nat}
    (h : ∀ j < i, Passes (examine drive info) (course (examine drive info) (st, n) j)) :
    (course (examine drive info) (st, n) i).1 = walk drive.image info st i := by
  induction i with
  | zero => rfl
  | succ i ih =>
    rw [course_next (h i (Nat.lt_succ_self i)), ih (fun j hj => h j (Nat.lt_succ_of_lt hj)), walk]

theorem course_passes
    (h : ∀ i, Label drive.image info (walk drive.image info st i) ∨
      Ending drive.image info (walk drive.image info st i)) (i : Nat) :
    Passes (examine drive info) (course (examine drive info) (st, n) i) := by
  induction i using Nat.strongRecOn with
  | _ i ih =>
    have hwalk := course_walk ih
    exact passes_iff.mpr (hwalk ▸ h i)

/-- What the image has to be like for the end to be found by every call. -/
theorem exhausted_barren (drive : Drive) (info : FatInfo) (st : DirEntryIteratorState) (n : Nat) :
    Exhausted (examine drive info) (st, n) ↔ Barren drive.image info st := by
  rw [exhausted_iff]
  constructor
  · rintro ⟨hp, hh⟩
    have hwalk (i : Nat) := course_walk (i := i) (fun j _ => hp j)
    refine ⟨fun i => ?_, fun i => ?_⟩
    · rw [← hwalk i]
      exact passes_iff.mp (hp i)
    · obtain ⟨j, hij, hj⟩ := hh i
      refine ⟨j, hij, ?_⟩
      rw [← hwalk j]
      exact halts_iff.mp hj
  · intro h
    have hp (i : Nat) := course_passes (n := n) h.passes i
    have hwalk (i : Nat) := course_walk (i := i) (fun j _ => hp j)
    refine ⟨hp, fun i => ?_⟩
    obtain ⟨j, hij, hj⟩ := h.ends i
    refine ⟨j, hij, halts_iff.mpr ?_⟩
    rw [hwalk j]
    exact hj

theorem later_stops (h : Later drive info st w s w') :
    Stops (examine drive info) (st, w.entries) (s, w'.entries) := by
  induction h with
  | start => exact .start
  | next _ hr he ih =>
    obtain ⟨m, rfl, ⟨he', -⟩ | ⟨-, hf⟩⟩ := nextDirEntry_finds hr
    · cases he.symm.trans he'
    · exact .next ih hf

theorem stops_later {p : Place} (h : Stops (examine drive info) (st, w.entries) p) :
    Later drive info st w p.1 (w.after p.2) := by
  induction h with
  | start => exact .start
  | next _ hf ih =>
    obtain ⟨e, he, hr⟩ := nextDirEntry_returns (w := w.after _) hf
    exact .next ih hr he

theorem stays_iff : Stays drive info st w ↔ Barren drive.image info st := by
  rw [← exhausted_barren drive info st w.entries]
  constructor
  · intro h p hp
    exact finished_iff.mp (h p.1 _ (stops_later hp))
  · intro h s w' hs
    exact finished_iff.mpr (h _ (later_stops hs))

/-- A zero is met again, as long as its entry number is not the one at which the
next cluster is looked for. -/
theorem zero_barren {image : Bytes} (hs : ahead image info st = .slot s)
    (hmax : s.entryNr ≠ s.maxEntryCnt) (hz : zeroAt image s = true) :
    Barren image info (next image info st) := by
  have hnext : next image info st = { s with entryNr := s.entryNr - 1 } := by
    simp only [next, hs, hz, if_true]
  have hahead : ahead image info (next image info st) = .slot s := by
    rw [hnext, ahead]
    simp only [UInt16.sub_add_cancel, if_pos hmax]
  have hback : next image info (next image info st) = next image info st := by
    rw [hnext] at hahead ⊢
    simp only [next, hahead, hz, if_true]
  have hwalk (i : Nat) : walk image info (next image info st) i = next image info st := by
    induction i with
    | zero => rfl
    | succ i ih => rw [walk, ih, hback]
  have hend (i : Nat) : Ending image info (walk image info (next image info st) i) := by
    rw [hwalk]
    obtain ⟨t, ht, hzero⟩ := (Option.any_eq_true _ _).mp hz
    obtain ⟨hattr, hfirst⟩ := of_decide_eq_true hzero
    exact .inl ⟨s, hahead, t, offset_slotOffset s ▸ ht, hattr, .inl hfirst⟩
  exact ⟨fun i => .inr (hend i), fun i => ⟨i, Nat.le_refl i, hend i⟩⟩

theorem walk_add {image : Bytes} (i j : Nat) :
    walk image info st (i + j) = walk image info (walk image info st i) j := by
  induction j with
  | zero => rfl
  | succ j ih => rw [← Nat.add_assoc, walk, walk, ih]

theorem walk_one {image : Bytes} : walk image info st 1 = next image info st := rfl

theorem walk_next {image : Bytes} (i : Nat) :
    walk image info (next image info st) i = walk image info st (i + 1) := by
  rw [Nat.add_comm, walk_add, walk_one]

/-- What is found is found behind labels. -/
theorem finds_walk {p : Place} {v : Verdict Place FatDirInfo Exit}
    (h : Finds (examine drive info) p v) :
    ∃ i, (∀ j < i, Entered drive.image info (walk drive.image info p.1 j)) ∧
      examine drive info (walk drive.image info p.1 i, p.2) = v := by
  induction h with
  | @skip p q v hs _ ih =>
    obtain ⟨i, hi, hv⟩ := ih
    obtain ⟨hl, hs'⟩ | ⟨-, -, e, hs'⟩ | ⟨-, m, hs'⟩ | ⟨-, -, x, hs'⟩ :=
      examine_next drive info p.1 p.2 <;> cases hs.symm.trans hs'
    refine ⟨i + 1, fun j hj => ?_, walk_next i ▸ hv⟩
    cases j with
    | zero => exact label_entered hl
    | succ j => exact walk_next j ▸ hi j (Nat.lt_of_succ_lt_succ hj)
  | give hs | stop hs | fail hs => exact ⟨0, nofun, hs⟩

theorem entered_add {image : Bytes} {i k : Nat}
    (hi : ∀ j < i, Entered image info (walk image info st j))
    (hk : ∀ j < k, Entered image info (walk image info (walk image info st i) j)) :
    ∀ j < i + k, Entered image info (walk image info st j) := by
  intro j hj
  obtain hlt | hle := Nat.lt_or_ge j i
  · exact hi j hlt
  · have h := hk (j - i) (by omega)
    rwa [← walk_add, Nat.add_sub_cancel' hle] at h

theorem examine_give {p : Place} {e : FatDirInfo}
    (h : examine drive info (st, n) = .give e p) :
    Entered drive.image info st ∧ p.1 = next drive.image info st := by
  obtain ⟨-, hs⟩ | ⟨he, -, e', hs⟩ | ⟨-, m, hs⟩ | ⟨-, -, x, hs⟩ :=
    examine_next drive info st n <;> cases hs.symm.trans h
  exact ⟨he, rfl⟩

theorem examine_stop {p : Place} (h : examine drive info (st, n) = .stop p) :
    Ending drive.image info st ∧ p.1 = next drive.image info st := by
  obtain ⟨-, hs⟩ | ⟨-, -, e, hs⟩ | ⟨he, m, hs⟩ | ⟨-, -, x, hs⟩ :=
    examine_next drive info st n <;> cases hs.symm.trans h
  exact ⟨he, rfl⟩

theorem gives_walk {gs : List (FatDirInfo × Place)} {p : Place}
    (h : Gives (examine drive info) (st, n) gs p) :
    ∃ i, (∀ j < i, Entered drive.image info (walk drive.image info st j)) ∧
      p.1 = walk drive.image info st i := by
  induction h with
  | start => exact ⟨0, nofun, rfl⟩
  | @next gs p e q _ hf ih =>
    obtain ⟨i, hi, hp⟩ := ih
    obtain ⟨k, hk, hs⟩ := finds_walk hf
    rw [hp] at hk hs
    obtain ⟨he, hq⟩ := examine_give hs
    refine ⟨i + (k + 1), entered_add hi (fun j hj => ?_), ?_⟩
    · obtain hj | rfl := Nat.lt_succ_iff_lt_or_eq.mp hj
      · exact hk j hj
      · exact he
    · rw [hq, walk_add, walk]

/-- The first end that an iterator finds. -/
theorem stop_walk {gs : List (FatDirInfo × Place)} {p q : Place}
    (h : Gives (examine drive info) (st, n) gs p) (hf : Finds (examine drive info) p (.stop q)) :
    ∃ i, FirstEnd drive.image info st i ∧ q.1 = walk drive.image info st (i + 1) := by
  obtain ⟨i, hi, hp⟩ := gives_walk h
  obtain ⟨k, hk, hs⟩ := finds_walk hf
  rw [hp] at hk hs
  obtain ⟨he, hq⟩ := examine_stop hs
  rw [← walk_add] at he hq
  exact ⟨i + k, ⟨he, entered_add hi hk⟩, hq⟩

theorem walk_stop {i : Nat} (h : FirstEnd drive.image info st i) (n : Nat) :
    ∃ gs p q, Gives (examine drive info) (st, n) gs p ∧ Finds (examine drive info) p (.stop q) ∧
      q.1 = walk drive.image info st (i + 1) := by
  obtain ⟨hend, hentered⟩ := h
  induction i generalizing st n with
  | zero =>
    obtain ⟨m, hm⟩ := halts_iff.mpr hend
    exact ⟨[], _, m, .start, .stop hm, (examine_stop hm).2⟩
  | succ i ih =>
    have hfirst : Entered drive.image info st := hentered 0 (Nat.succ_pos i)
    obtain ⟨-, hs⟩ | ⟨-, -, e, hs⟩ | ⟨he, -⟩ | ⟨he, -⟩ := examine_next drive info st n
    · obtain ⟨gs, p, q, hg, hf, hq⟩ := ih n (walk_next i ▸ hend)
        (fun j hj => walk_next j ▸ hentered (j + 1) (Nat.succ_lt_succ hj))
      rw [walk_next] at hq
      obtain ⟨rfl, rfl⟩ | hg := gives_skip hs hg
      · exact ⟨[], _, q, .start, .skip hs hf, hq⟩
      · exact ⟨gs, p, q, hg, hf, hq⟩
    · obtain ⟨gs, p, q, hg, hf, hq⟩ := ih (n + 1) (walk_next i ▸ hend)
        (fun j hj => walk_next j ▸ hentered (j + 1) (Nat.succ_lt_succ hj))
      rw [walk_next] at hq
      exact ⟨_, p, q, gives_cons (.give hs) hg, hf, hq⟩
    · exact absurd hfirst (ending_not_entered he)
    · exact absurd hfirst he

theorem barren_of_keepsEnd {sec : UInt32} {st₀ : DirEntryIteratorState} {i : Nat}
    (h : KeepsEnd drive info sec) (hst : newDirEntryIterator info sec = some st₀)
    (hend : FirstEnd drive.image info st₀ i) :
    Barren drive.image info (walk drive.image info st₀ (i + 1)) := by
  obtain ⟨gs, p, q, hg, hf, hq⟩ := walk_stop hend 0
  have hcalls : Calls drive info st₀ ⟨0, 0, []⟩ _ p.1 (World.after ⟨0, 0, []⟩ p.2) :=
    gives_calls hg
  obtain ⟨e, he, hr⟩ := nextDirEntry_returns (w := World.after ⟨0, 0, []⟩ p.2) hf
  rw [← hq]
  exact stays_iff.mp (h _ _ _ _ _ _ _ _ hst hcalls hr he)

/-- The end stays the end exactly when nothing but labels and ends comes behind it. -/
theorem keepsEnd_iff (drive : Drive) (info : FatInfo) (sec : UInt32) :
    KeepsEnd drive info sec ↔ ∀ st₀ i, newDirEntryIterator info sec = some st₀ →
      FirstEnd drive.image info st₀ i →
        Barren drive.image info (walk drive.image info st₀ (i + 1)) := by
  constructor
  · exact fun h st₀ i hst hend => barren_of_keepsEnd h hst hend
  · intro h st₀ w₀ es st₁ w₁ e st w hst hcalls hr he
    obtain ⟨gs, hg, -⟩ := calls_gives hcalls
    obtain ⟨m, rfl, ⟨he', -⟩ | ⟨-, hf⟩⟩ := nextDirEntry_finds hr
    · cases he.symm.trans he'
    · obtain ⟨i, hend, hwalk⟩ := stop_walk hg hf
      have hst' : st = walk drive.image info st₀ (i + 1) := hwalk
      rw [stays_iff, hst']
      exact h st₀ i hst hend

/-- A full root directory, and what comes behind it in the image. -/
def fullRoot : Drive :=
  small (List.replicate 32 0) [record (ascii "A       TXT") 0x20 2 0,
    record (ascii "B       TXT") 0x20 3 0, record (ascii "C       TXT") 0x20 4 0,
    record (ascii "D       TXT") 0x20 5 0]

/-- Behind the end the iterator goes on with what it finds there. -/
theorem fullRoot_goes_on :
    Reads fullRoot readFatInfo (some smallInfo) ∧ ¬KeepsEnd fullRoot smallInfo 3 := by
  refine ⟨small_reads _ _, fun h => ?_⟩
  have hend : FirstEnd fullRoot.image smallInfo ⟨true, 2, -1, 96, -1⟩ 2 := by
    refine ⟨.inr ⟨⟨true, 2, -1, 96, 2⟩, by decide +kernel⟩, fun j hj => ?_⟩
    refine ⟨⟨true, 2, -1, 96, UInt16.ofNat j⟩, ?_⟩
    revert j
    decide +kernel
  have hst : newDirEntryIterator smallInfo 3 = some ⟨true, 2, -1, 96, -1⟩ := by decide
  have hwalk : walk fullRoot.image smallInfo ⟨true, 2, -1, 96, -1⟩ 3 = ⟨true, 2, -1, 96, 2⟩ := by
    decide +kernel
  have hahead : ahead fullRoot.image smallInfo ⟨true, 2, -1, 96, 2⟩ =
      .slot ⟨true, 2, -1, 96, 3⟩ := by
    decide +kernel
  have hlabel : labelled fullRoot.image 96 3 = false := by decide +kernel
  have hgiven : passed fullRoot.image 96 3 = true := by decide +kernel
  have hbarren : Barren fullRoot.image smallInfo ⟨true, 2, -1, 96, 2⟩ :=
    hwalk ▸ barren_of_keepsEnd h hst hend
  obtain ⟨s, hs, hl⟩ | hends := hbarren.passes 0
  · cases hahead.symm.trans hs
    cases hlabel.symm.trans hl
  · exact ending_not_entered hends ⟨_, hahead, hgiven⟩

end Ti3.Fat.EndSentinel
