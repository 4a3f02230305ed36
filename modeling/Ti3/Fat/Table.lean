import Mathlib.Data.List.Forall2
import Ti3.Fat.Iterator

namespace Ti3.Fat.Table

open Library.CString Library.CMemory Library.Interaction Library.Determinism Library.Cursor
open DriveLs Image Iterator

/-- Where the slots of a directory are, in 32-bit arithmetic. -/
def slotOffset (base : UInt32) (k : Nat) : Nat :=
  (base + UInt32.ofNat k * 32).toNat

/-- The slot is a volume label or a part of a long name. -/
def labelled (image : Bytes) (base : UInt32) (k : Nat) : Bool :=
  (image[slotOffset base k + 11]?).any (fun attr => attr &&& 0x08 ≠ 0)

/-- The entry in a slot, if it is one that the iterator returns. -/
def given (image : Bytes) (base : UInt32) (k : Nat) : Option Slot :=
  (slotAt image (slotOffset base k)).filter
    (fun s => s.attr &&& 0x08 = 0 ∧ s.first ≠ 0 ∧ ¬s.Sentinel)

def passed (image : Bytes) (base : UInt32) (k : Nat) : Bool :=
  labelled image base k || (given image base k).isSome

/-- The entries in the first slots that the iterator returns. -/
def givens (image : Bytes) (base : UInt32) (k : Nat) : List (Slot × Nat) :=
  (List.range k).filterMap (fun i => (given image base i).map (fun s => (s, i)))

/-- The iterator in front of a slot. -/
def before (st : DirEntryIteratorState) (k : Nat) : DirEntryIteratorState :=
  { st with entryNr := UInt16.ofNat k - 1 }

/-- The directory has no other slots: it is the root directory, or no cluster
follows. -/
def Last (image : Bytes) (info : FatInfo) (st : DirEntryIteratorState) : Prop :=
  st.isRootDir = true ∨ ∃ c, fatEntry image info st.clusterNr = some c ∧ isEoc c = true

/-- The iterator takes the slot for the end of the directory. -/
def Closes (image : Bytes) (base : UInt32) (k : Nat) : Prop :=
  ∃ s, slotAt image (slotOffset base k) = some s ∧ s.attr &&& 0x08 = 0 ∧ (s.first = 0 ∨ s.Sentinel)

variable {drive : Drive} {info : FatInfo} {st : DirEntryIteratorState} {base : UInt32}
variable {i k n : Nat} {s : Slot} {e : FatDirInfo} {p : Place}

theorem given_eq {image : Bytes} : given image base k = some s ↔
    slotAt image (slotOffset base k) = some s ∧ s.attr &&& 0x08 = 0 ∧ s.first ≠ 0 ∧
      ¬s.Sentinel := by
  simp [given, Option.filter_eq_some_iff]

theorem labelled_eq {image : Bytes} : labelled image base k = true ↔
    ∃ attr, image[slotOffset base k + 11]? = some attr ∧ attr &&& 0x08 ≠ 0 := by
  simp [labelled, Option.any_eq_true]

/-- A label is not given. -/
theorem given_labelled {image : Bytes} (h : labelled image base k = true) :
    given image base k = none := by
  obtain ⟨attr, ha, hl⟩ := labelled_eq.mp h
  rw [Option.eq_none_iff_forall_ne_some]
  intro s hs
  obtain ⟨hs, hattr, -⟩ := given_eq.mp hs
  rw [(slotAt_eq.mp hs).1] at ha
  cases ha
  exact hl hattr

theorem givens_zero {image : Bytes} : givens image base 0 = [] := rfl

theorem givens_succ {image : Bytes} : givens image base (k + 1) =
    givens image base k ++ ((given image base k).map (fun s => (s, k))).toList := by
  rw [givens, List.range_succ, List.filterMap_append, ← givens]
  cases h : given image base k <;> simp [h]

theorem before_zero (h : st.entryNr = -1) : before st 0 = st := by
  cases st
  simp [before] at h ⊢
  exact h.symm

theorem entryNr_before : (before st k).entryNr + 1 = UInt16.ofNat k := by
  simp [before]

theorem before_succ : before st (k + 1) = { st with entryNr := UInt16.ofNat k } := by
  simp [before]

theorem examine_before (hk : k < st.maxEntryCnt.toNat) :
    examine drive info (before st k, n) =
      examineEntry drive { st with entryNr := UInt16.ofNat k } n := by
  have hne : UInt16.ofNat k ≠ st.maxEntryCnt := by
    intro h
    have hm := st.maxEntryCnt.toNat_lt
    rw [← h, UInt16.toNat_ofNat', Nat.mod_eq_of_lt (by omega)] at hk
    exact absurd hk (Nat.lt_irrefl k)
  simp only [examine, entryNr_before]
  rw [if_pos]
  · rfl
  · exact hne

theorem offset_current (hk : k < st.maxEntryCnt.toNat) :
    offset { st with entryNr := UInt16.ofNat k } = slotOffset st.clusterOffset k := by
  have hm := st.maxEntryCnt.toNat_lt
  have hnr : (UInt16.ofNat k).toUInt32 = UInt32.ofNat k := by
    rw [← UInt32.toNat_inj, UInt16.toNat_toUInt32, UInt16.toNat_ofNat', UInt32.toNat_ofNat',
      Nat.mod_eq_of_lt (by omega), Nat.mod_eq_of_lt (by omega)]
  rw [offset, slotOffset, hnr]

theorem closes_unpassed {image : Bytes} (h : Closes image base k) :
    passed image base k = false := by
  obtain ⟨s, hs, hattr, hend⟩ := h
  refine Bool.or_eq_false_iff.mpr ⟨?_, ?_⟩
  · rw [← Bool.not_eq_true, labelled_eq]
    rintro ⟨attr, ha, hl⟩
    rw [(slotAt_eq.mp hs).1] at ha
    cases ha
    exact hl hattr
  · rw [Option.isSome_eq_false_iff, Option.isNone_iff_eq_none, Option.eq_none_iff_forall_ne_some]
    intro t ht
    obtain ⟨ht, -, hfirst, hs'⟩ := given_eq.mp ht
    rw [hs] at ht
    cases ht
    exact hend.elim hfirst hs'

theorem examineEntry_closes (ho : offset st = slotOffset base k)
    (hc : Closes drive.image base k) : ∃ p, examineEntry drive st n = .stop p := by
  obtain ⟨s, hs, hattr, hend⟩ := hc
  rw [← ho] at hs
  rw [examineEntry_slot hs hattr]
  by_cases hfirst : s.first = 0
  · exact ⟨_, if_pos hfirst⟩
  · rw [if_neg hfirst]
    exact ⟨_, if_pos (hend.resolve_left hfirst)⟩

/-- What the iterator can make of a slot. -/
theorem examineEntry_cases (drive : Drive) (ho : offset st = slotOffset base k) (n : Nat) :
    (labelled drive.image base k = true ∧ examineEntry drive st n = .skip (st, n)) ∨
    (∃ s, given drive.image base k = some s ∧
      examineEntry drive st n = .give (s.entry (drive.names n)) (st, n + 1)) ∨
    passed drive.image base k = false ∧
      ((Closes drive.image base k ∧ ∃ p, examineEntry drive st n = .stop p) ∨
        examineEntry drive st n = .fail readError) := by
  cases hl : labelled drive.image base k with
  | true =>
    obtain ⟨attr, ha, hl⟩ := labelled_eq.mp hl
    rw [← ho] at ha
    exact .inl ⟨rfl, examineEntry_label ha hl⟩
  | false =>
    have hattr (attr : UInt8) (ha : drive.image[offset st + 11]? = some attr) :
        attr &&& 0x08 = 0 := by
      by_contra h
      rw [ho] at ha
      rw [labelled_eq.mpr ⟨attr, ha, h⟩] at hl
      cases hl
    cases hs : slotAt drive.image (offset st) with
    | none =>
      refine .inr (.inr ⟨?_, .inr (examineEntry_missing hattr hs)⟩)
      rw [ho] at hs
      simp [passed, hl, given, hs]
    | some s =>
      have hs₀ := hattr _ (slotAt_eq.mp hs).1
      have hslot := examineEntry_slot (n := n) hs hs₀
      rw [ho] at hs
      by_cases hend : s.first = 0 ∨ s.Sentinel
      · have hc : Closes drive.image base k := ⟨s, hs, hs₀, hend⟩
        exact .inr (.inr ⟨closes_unpassed hc, .inl ⟨hc, examineEntry_closes ho hc⟩⟩)
      · obtain ⟨hfirst, hend⟩ := not_or.mp hend
        refine .inr (.inl ⟨s, given_eq.mpr ⟨hs, hs₀, hfirst, hend⟩, ?_⟩)
        exact hslot.trans ((if_neg hfirst).trans (if_neg hend))

/-- What a step inside a cluster can do. -/
theorem examine_slot (drive : Drive) (info : FatInfo) (hk : k < st.maxEntryCnt.toNat) (n : Nat) :
    (labelled drive.image st.clusterOffset k = true ∧
      examine drive info (before st k, n) = .skip (before st (k + 1), n)) ∨
    (∃ s, given drive.image st.clusterOffset k = some s ∧
      examine drive info (before st k, n) =
        .give (s.entry (drive.names n)) (before st (k + 1), n + 1)) ∨
    passed drive.image st.clusterOffset k = false ∧
      ((Closes drive.image st.clusterOffset k ∧
        ∃ p, examine drive info (before st k, n) = .stop p) ∨
          examine drive info (before st k, n) = .fail readError) := by
  rw [examine_before hk, before_succ]
  exact examineEntry_cases drive (offset_current hk) n

theorem passed_labelled {image : Bytes} (h : labelled image base k = true) :
    passed image base k = true := by
  rw [passed, h, Bool.true_or]

theorem passed_given {image : Bytes} (h : given image base k = some s) :
    passed image base k = true := by
  rw [passed, h]
  exact Bool.or_true _

theorem passed_succ {image : Bytes} (hp : ∀ j < k, passed image base j = true)
    (hk : passed image base k = true) : ∀ j < k + 1, passed image base j = true := by
  intro j hj
  obtain hj | rfl := Nat.lt_succ_iff_lt_or_eq.mp hj
  · exact hp j hj
  · exact hk

theorem examine_labelled (hk : k < st.maxEntryCnt.toNat)
    (hl : labelled drive.image st.clusterOffset k = true) :
    examine drive info (before st k, n) = .skip (before st (k + 1), n) := by
  obtain ⟨-, h⟩ | ⟨s, hs, -⟩ | ⟨hp, -⟩ := examine_slot drive info hk n
  · exact h
  · rw [given_labelled hl] at hs
    cases hs
  · rw [passed_labelled hl] at hp
    cases hp

theorem examine_given (hk : k < st.maxEntryCnt.toNat)
    (hs : given drive.image st.clusterOffset k = some s) :
    examine drive info (before st k, n) =
      .give (s.entry (drive.names n)) (before st (k + 1), n + 1) := by
  obtain ⟨hl, -⟩ | ⟨t, ht, h⟩ | ⟨hp, -⟩ := examine_slot drive info hk n
  · rw [given_labelled hl] at hs
    cases hs
  · cases hs.symm.trans ht
    exact h
  · rw [passed_given hs] at hp
    cases hp

theorem examine_closes (hk : k < st.maxEntryCnt.toNat)
    (hc : Closes drive.image st.clusterOffset k) :
    ∃ p, examine drive info (before st k, n) = .stop p := by
  rw [examine_before hk]
  exact examineEntry_closes (offset_current hk) hc

/-- At the end of the last cluster. -/
theorem examine_last (hl : Last drive.image info st) :
    (∃ p, examine drive info (before st st.maxEntryCnt.toNat, n) = .stop p) ∨
      info.bytsPerSec = 0 ∧
        examine drive info (before st st.maxEntryCnt.toNat, n) = .fail .fault := by
  have hmax : (before st st.maxEntryCnt.toNat).entryNr + 1 = st.maxEntryCnt := by
    rw [entryNr_before, UInt16.ofNat_toNat]
  have hcnt : (before st st.maxEntryCnt.toNat).maxEntryCnt = st.maxEntryCnt := rfl
  have hroot : (before st st.maxEntryCnt.toNat).isRootDir = st.isRootDir := rfl
  have hnr : (before st st.maxEntryCnt.toNat).clusterNr = st.clusterNr := rfl
  simp only [examine, hmax, hcnt, hroot, hnr, ne_eq, not_true_eq_false, if_false]
  cases hr : st.isRootDir with
  | true => exact .inl ⟨_, rfl⟩
  | false =>
    obtain ⟨c, hc, he⟩ := hl.resolve_left (by simp [hr])
    by_cases hb : info.bytsPerSec = 0
    · simp [hb]
    · simp [hb, hc, he]

/-- The next cluster is entered at the entry before its first one, and its sector
number is taken for its offset. -/
theorem examine_turn {c : UInt16} (hroot : st.isRootDir = false) (hb : info.bytsPerSec ≠ 0)
    (hc : fatEntry drive.image info st.clusterNr = some c) (he : isEoc c = false) :
    examine drive info (before st st.maxEntryCnt.toNat, n) = examineEntry drive
      { st with clusterNr := c, clusterOffset := clusterToSec info c, entryNr := -1 } n := by
  have hmax : (before st st.maxEntryCnt.toNat).entryNr + 1 = st.maxEntryCnt := by
    rw [entryNr_before, UInt16.ofNat_toNat]
  have hnr : (before st st.maxEntryCnt.toNat).clusterNr = st.clusterNr := rfl
  have hfalse : (before st st.maxEntryCnt.toNat).isRootDir = false := hroot
  have hcnt : (before st st.maxEntryCnt.toNat).maxEntryCnt = st.maxEntryCnt := rfl
  simp only [examine, hmax, hcnt, hnr, hfalse, ne_eq, not_true_eq_false, if_false, hb, hc, he,
    Bool.false_eq_true, hroot]

theorem offset_turned (st : DirEntryIteratorState) (c : UInt16) (base : UInt32) :
    offset { st with clusterNr := c, clusterOffset := base, entryNr := -1 } =
      slotOffset base 65535 := by
  have hnr : (-1 : UInt16).toUInt32 = UInt32.ofNat 65535 := rfl
  rw [offset, slotOffset, hnr]

/-- What a step in a directory without further clusters can do. -/
theorem examine_cases (hl : Last drive.image info st) (hk : k ≤ st.maxEntryCnt.toNat) :
    (k < st.maxEntryCnt.toNat ∧ labelled drive.image st.clusterOffset k = true ∧
      examine drive info (before st k, n) = .skip (before st (k + 1), n)) ∨
    (∃ s, k < st.maxEntryCnt.toNat ∧ given drive.image st.clusterOffset k = some s ∧
      examine drive info (before st k, n) =
        .give (s.entry (drive.names n)) (before st (k + 1), n + 1)) ∨
    ((k = st.maxEntryCnt.toNat ∨ Closes drive.image st.clusterOffset k) ∧
      ∃ p, examine drive info (before st k, n) = .stop p) ∨
      ∃ x, examine drive info (before st k, n) = .fail x := by
  obtain hlt | rfl := Nat.lt_or_eq_of_le hk
  · obtain h | ⟨s, h⟩ | ⟨-, ⟨hc, h⟩ | h⟩ := examine_slot drive info hlt n
    · exact .inl ⟨hlt, h⟩
    · exact .inr (.inl ⟨s, hlt, h⟩)
    · exact .inr (.inr (.inl ⟨.inr hc, h⟩))
    · exact .inr (.inr (.inr ⟨_, h⟩))
  · exact .inr (.inr ((examine_last hl).imp (fun h => ⟨.inl rfl, h⟩) (fun h => ⟨_, h.2⟩)))

/-- What is found is found behind labels. -/
theorem finds_at {v : Verdict Place FatDirInfo Exit} (hl : Last drive.image info st)
    (hk : k ≤ st.maxEntryCnt.toNat) (h : Finds (examine drive info) (before st k, n) v) :
    ∃ i, k ≤ i ∧ i ≤ st.maxEntryCnt.toNat ∧
      (∀ j, k ≤ j → j < i → labelled drive.image st.clusterOffset j = true) ∧
      examine drive info (before st i, n) = v := by
  generalize hq : (before st k, n) = q at h
  induction h generalizing k with
  | @skip q q' v hs _ ih =>
    subst hq
    obtain ⟨hlt, hlab, h⟩ | ⟨s, -, -, h⟩ | ⟨-, p, h⟩ | ⟨x, h⟩ := examine_cases (n := n) hl hk <;>
      cases h.symm.trans hs
    obtain ⟨i, hi, him, hskip, hv⟩ := ih hlt rfl
    refine ⟨i, Nat.le_of_succ_le hi, him, fun j hj hji => ?_, hv⟩
    obtain rfl | hj := Nat.eq_or_lt_of_le hj
    · exact hlab
    · exact hskip j hj hji
  | give hs | stop hs | fail hs =>
    subst hq
    exact ⟨k, Nat.le_refl k, hk, fun j hj hjk => absurd hjk (Nat.not_lt.mpr hj), hs⟩

theorem finds_given (hl : Last drive.image info st) (hk : k ≤ st.maxEntryCnt.toNat)
    (h : Finds (examine drive info) (before st k, n) (.give e p)) :
    ∃ i s, k ≤ i ∧ i < st.maxEntryCnt.toNat ∧
      (∀ j, k ≤ j → j < i → labelled drive.image st.clusterOffset j = true) ∧
      given drive.image st.clusterOffset i = some s ∧
      e = s.entry (drive.names n) ∧ p = (before st (i + 1), n + 1) := by
  obtain ⟨i, hki, him, hskip, hs⟩ := finds_at hl hk h
  obtain ⟨-, -, h⟩ | ⟨s, hlt, hg, h⟩ | ⟨-, p, h⟩ | ⟨x, h⟩ := examine_cases (n := n) hl him <;>
    cases h.symm.trans hs
  exact ⟨i, s, hki, hlt, hskip, hg, rfl, rfl⟩

/-- Labels are passed over. -/
theorem finds_labelled {v : Verdict Place FatDirInfo Exit} (hki : k ≤ i)
    (hi : i ≤ st.maxEntryCnt.toNat)
    (hl : ∀ j, k ≤ j → j < i → labelled drive.image st.clusterOffset j = true)
    (h : Finds (examine drive info) (before st i, n) v) :
    Finds (examine drive info) (before st k, n) v := by
  induction hki using Nat.decreasingInduction with
  | self => exact h
  | of_succ j hj ih =>
    exact .skip (examine_labelled (by omega) (hl j (Nat.le_refl j) hj))
      (ih (fun m hm hmi => hl m (by omega) hmi))

/-- What has been handed out for a slot. -/
def Read (drive : Drive) (st : DirEntryIteratorState) (slot : Slot × Nat)
    (g : FatDirInfo × Place) : Prop :=
  (∃ m, g.1 = slot.1.entry (drive.names m)) ∧ g.2.1 = before st (slot.2 + 1)

theorem givens_labelled {image : Bytes} (hki : k ≤ i)
    (hl : ∀ j, k ≤ j → j < i → labelled image base j = true) :
    givens image base i = givens image base k := by
  induction i, hki using Nat.le_induction with
  | base => rfl
  | succ i hki ih =>
    rw [givens_succ, given_labelled (hl i hki (Nat.lt_succ_self i)),
      ih (fun j hj hji => hl j hj (Nat.lt_succ_of_lt hji))]
    exact List.append_nil _

/-- Everything in front of the iterator has been passed, and all that was given
has been handed out. -/
theorem gives_givens {gs : List (FatDirInfo × Place)} (hl : Last drive.image info st)
    (h : Gives (examine drive info) (before st 0, n) gs p) :
    ∃ k, k ≤ st.maxEntryCnt.toNat ∧ p.1 = before st k ∧
      (∀ j < k, passed drive.image st.clusterOffset j = true) ∧
      List.Forall₂ (Read drive st) (givens drive.image st.clusterOffset k) gs := by
  induction h with
  | start => exact ⟨0, Nat.zero_le _, rfl, nofun, .nil⟩
  | @next es p₁ e p₂ _ hf ih =>
    obtain ⟨st₁, m⟩ := p₁
    obtain ⟨k, hk, rfl, hpassed, hread⟩ := ih
    obtain ⟨i, s, hki, him, hskip, hg, rfl, rfl⟩ := finds_given hl hk hf
    refine ⟨i + 1, him, rfl, fun j hj => ?_, ?_⟩
    · obtain hj | rfl := Nat.lt_succ_iff_lt_or_eq.mp hj
      · obtain hjk | hkj := Nat.lt_or_ge j k
        · exact hpassed j hjk
        · exact passed_labelled (hskip j hkj hj)
      · exact passed_given hg
    · rw [givens_succ, givens_labelled hki hskip, hg]
      exact List.rel_append hread (.cons ⟨⟨_, rfl⟩, rfl⟩ .nil)

theorem gives_mem {gs : List (FatDirInfo × Place)} (hl : Last drive.image info st)
    (h : Gives (examine drive info) (before st 0, n) gs p) :
    ∀ g ∈ gs, ∃ i s m, i < st.maxEntryCnt.toNat ∧
      (∀ j < i, passed drive.image st.clusterOffset j = true) ∧
      given drive.image st.clusterOffset i = some s ∧
      g.1 = s.entry (drive.names m) ∧ g.2.1 = before st (i + 1) := by
  induction h with
  | start => exact nofun
  | @next es p₁ e p₂ hes hf ih =>
    intro g hmem
    obtain hmem | hmem := List.mem_append.mp hmem
    · exact ih g hmem
    · cases List.mem_singleton.mp hmem
      obtain ⟨st₁, m⟩ := p₁
      obtain ⟨k, hk, rfl, hpassed, -⟩ := gives_givens hl hes
      obtain ⟨i, s, hki, him, hskip, hgiven, he, hp⟩ := finds_given hl hk hf
      refine ⟨i, s, m, him, fun j hj => ?_, hgiven, he, congrArg Prod.fst hp⟩
      obtain hjk | hkj := Nat.lt_or_ge j k
      · exact hpassed j hjk
      · exact passed_labelled (hskip j hkj hj)

/-- What has been passed can be reached, up to labels. -/
theorem passed_gives (info : FatInfo) (hk : k ≤ st.maxEntryCnt.toNat)
    (hp : ∀ j < k, passed drive.image st.clusterOffset j = true) (n : Nat) :
    ∃ k', k' ≤ k ∧ (∀ j, k' ≤ j → j < k → labelled drive.image st.clusterOffset j = true) ∧
      ∃ gs m, Gives (examine drive info) (before st 0, n) gs (before st k', m) ∧
        List.Forall₂ (Read drive st) (givens drive.image st.clusterOffset k) gs := by
  induction k with
  | zero =>
    exact ⟨0, Nat.le_refl 0, fun j _ hj => absurd hj (Nat.not_lt_zero j), [], n, .start, .nil⟩
  | succ k ih =>
    obtain ⟨k', hk', hskip, gs, m, hg, hread⟩ :=
      ih (Nat.le_of_succ_le hk) (fun j hj => hp j (Nat.lt_succ_of_lt hj))
    cases hlab : labelled drive.image st.clusterOffset k with
    | true =>
      refine ⟨k', Nat.le_succ_of_le hk', fun j hj hjk => ?_, gs, m, hg, ?_⟩
      · obtain hjk | rfl := Nat.lt_succ_iff_lt_or_eq.mp hjk
        · exact hskip j hj hjk
        · exact hlab
      · rw [givens_succ, given_labelled hlab]
        simpa using hread
    | false =>
      have hgiven := hp k (Nat.lt_succ_self k)
      rw [passed, hlab, Bool.false_or, Option.isSome_iff_exists] at hgiven
      obtain ⟨s, hs⟩ := hgiven
      have hfind : Finds (examine drive info) (before st k', m) _ :=
        finds_labelled hk' (Nat.le_of_succ_le hk) hskip (.give (examine_given hk hs))
      refine ⟨k + 1, Nat.le_refl _, fun j hj hjk => absurd hjk (Nat.not_lt.mpr hj), _, _,
        .next hg hfind, ?_⟩
      rw [givens_succ, hs]
      exact List.rel_append hread (.cons ⟨⟨_, rfl⟩, rfl⟩ .nil)

end Ti3.Fat.Table
