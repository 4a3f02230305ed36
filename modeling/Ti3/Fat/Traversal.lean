import Ti3.Fat.Table

namespace Ti3.Fat.Traversal

open Library.CString Library.CMemory Library.Interaction Library.Determinism Library.Cursor
open DriveLs Image Iterator Table

variable {drive : Drive} {info : FatInfo} {st : DirEntryIteratorState} {base : UInt32}
variable {k n : Nat} {ss : List Slot} {es : List FatDirInfo}

/-- The cluster that is entered where another one ends. -/
def turned (st : DirEntryIteratorState) (info : FatInfo) (c : UInt16) : DirEntryIteratorState :=
  { st with clusterNr := c, clusterOffset := clusterToSec info c, entryNr := -1 }

theorem turned_before (c : UInt16) : before (turned st info c) 0 = turned st info c :=
  before_zero rfl

/-- What a step behind the last slot of a cluster can do. -/
theorem examine_full (drive : Drive) (hb : info.bytsPerSec ≠ 0) (hroot : st.isRootDir = false)
    (n : Nat) :
    (fatEntry drive.image info st.clusterNr = none ∧
      examine drive info (before st st.maxEntryCnt.toNat, n) = .fail readError) ∨
    (∃ c p, fatEntry drive.image info st.clusterNr = some c ∧ isEoc c = true ∧
      examine drive info (before st st.maxEntryCnt.toNat, n) = .stop p) ∨
    ∃ c, fatEntry drive.image info st.clusterNr = some c ∧ isEoc c = false ∧
      examine drive info (before st st.maxEntryCnt.toNat, n) =
        examineEntry drive (turned st info c) n := by
  cases hc : fatEntry drive.image info st.clusterNr with
  | none =>
    refine .inl ⟨rfl, ?_⟩
    simp [examine, before, hroot, hb, hc]
  | some c =>
    cases he : isEoc c with
    | true =>
      obtain ⟨p, hp⟩ := (examine_last (n := n) (.inr ⟨c, hc, he⟩)).resolve_right (fun h => hb h.1)
      exact .inr (.inl ⟨c, p, rfl, he, hp⟩)
    | false => exact .inr (.inr ⟨c, rfl, he, examine_turn hroot hb hc he⟩)

/-- The entries that the iterator comes past. `m` is the number of slots of a cluster,
and `base` where it looks for them: at the sector number of the next cluster, and
there in slot 65535 first. -/
inductive Traverses (image : Bytes) (info : FatInfo) (root : Prop) (m : Nat) :
    UInt32 → UInt16 → List Slot → Prop
  | closes {base c k} : k < m → (∀ j < k, passed image base j = true) → Closes image base k →
      Traverses image info root m base c ((givens image base k).map Prod.fst)
  | last {base c} : (∀ j < m, passed image base j = true) →
      (root ∨ ∃ e, fatEntry image info c = some e ∧ isEoc e = true) →
        Traverses image info root m base c ((givens image base m).map Prod.fst)
  | astray {base c d} : ¬root → (∀ j < m, passed image base j = true) →
      fatEntry image info c = some d → isEoc d = false →
        Closes image (clusterToSec info d) 65535 →
          Traverses image info root m base c ((givens image base m).map Prod.fst)
  | next {base c d ss} : ¬root → (∀ j < m, passed image base j = true) →
      fatEntry image info c = some d → isEoc d = false →
        passed image (clusterToSec info d) 65535 = true →
          Traverses image info root m (clusterToSec info d) d ss →
            Traverses image info root m base c ((givens image base m).map Prod.fst ++
              (given image (clusterToSec info d) 65535).toList ++ ss)

/-- What the program makes of a slot of the image. -/
def Shows (drive : Drive) (s : Slot) (e : FatDirInfo) : Prop :=
  (∃ o, slotAt drive.image o = some s) ∧ ∃ n, e = s.entry (drive.names n)

theorem given_shows {s : Slot} (h : given drive.image base k = some s) (n : Nat) :
    Shows drive s (s.entry (drive.names n)) :=
  ⟨⟨_, (given_eq.mp h).1⟩, n, rfl⟩

/-- The iterator produces what the slots show. -/
def Displays (drive : Drive) (info : FatInfo) (p : Place) (ss : List Slot) : Prop :=
  ∃ es, Produces (examine drive info) p es ∧ List.Forall₂ (Shows drive) ss es

theorem displays_skip {p q : Place} (hs : examine drive info p = .skip q)
    (h : Displays drive info q ss) : Displays drive info p ss := by
  obtain ⟨es, hp, hes⟩ := h
  exact ⟨es, .skip hs hp, hes⟩

theorem displays_give {p q : Place} {s : Slot} (hg : given drive.image base k = some s)
    (hs : examine drive info p = .give (s.entry (drive.names n)) q)
    (h : Displays drive info q ss) : Displays drive info p (s :: ss) := by
  obtain ⟨es, hp, hes⟩ := h
  exact ⟨_, .give hs hp, .cons (given_shows hg n) hes⟩

theorem displays_stop {p q : Place} (hs : examine drive info p = .stop q) :
    Displays drive info p [] :=
  ⟨[], .stop hs, .nil⟩

theorem displays_table (hk : k ≤ st.maxEntryCnt.toNat)
    (hp : ∀ j < k, passed drive.image st.clusterOffset j = true)
    (h : ∀ n, Displays drive info (before st k, n) ss) (n : Nat) :
    Displays drive info (before st 0, n)
      ((givens drive.image st.clusterOffset k).map Prod.fst ++ ss) := by
  induction k generalizing ss n with
  | zero => exact h n
  | succ k ih =>
    rw [givens_succ, List.map_append, List.append_assoc]
    refine ih (Nat.le_of_succ_le hk) (fun j hj => hp j (Nat.lt_succ_of_lt hj)) (fun n => ?_) n
    obtain ⟨hl, hs⟩ | ⟨s, hg, hs⟩ | ⟨hp', -⟩ := examine_slot drive info hk n
    · rw [given_labelled hl]
      exact displays_skip hs (h n)
    · rw [hg]
      exact displays_give hg hs (h (n + 1))
    · rw [hp k (Nat.lt_succ_self k)] at hp'
      cases hp'

/-- What the iterator comes past is produced. -/
theorem traverses_displays {c : UInt16} {m : Nat} (hb : info.bytsPerSec ≠ 0)
    (h : Traverses drive.image info (st.isRootDir = true) m base c ss)
    (hm : st.maxEntryCnt.toNat = m) (hbase : st.clusterOffset = base) (hc : st.clusterNr = c)
    (n : Nat) : Displays drive info (before st 0, n) ss := by
  generalize hroot : (st.isRootDir = true) = root at h
  induction h generalizing st n with
  | closes hk hp hclose =>
    subst hm hbase hc
    rw [← List.append_nil (List.map _ _)]
    refine displays_table (Nat.le_of_lt hk) hp (fun n => ?_) n
    obtain ⟨p, hs⟩ := examine_closes hk hclose
    exact displays_stop hs
  | last hp hend =>
    subst hm hbase hc hroot
    rw [← List.append_nil (List.map _ _)]
    refine displays_table (Nat.le_refl _) hp (fun n => ?_) n
    obtain ⟨p, hs⟩ := (examine_last hend).resolve_right (fun h => hb h.1)
    exact displays_stop hs
  | astray hr hp hd he hclose =>
    subst hm hbase hc hroot
    rw [← List.append_nil (List.map _ _)]
    refine displays_table (Nat.le_refl _) hp (fun n => ?_) n
    obtain ⟨p, hs⟩ := examineEntry_closes (offset_turned st _ _) hclose
    exact displays_stop ((examine_turn (Bool.not_eq_true _ ▸ hr) hb hd he).trans hs)
  | @next base c d ts hr hp hd he hpass _ ih =>
    subst hm hbase hc hroot
    rw [List.append_assoc]
    refine displays_table (Nat.le_refl _) hp (fun n => ?_) n
    have hturn := examine_turn (n := n) (Bool.not_eq_true _ ▸ hr) hb hd he
    have hrest : ∀ n, Displays drive info (turned st info d, n) ts := fun n => by
      rw [← turned_before]
      exact @ih (turned st info d) rfl rfl rfl n rfl
    obtain ⟨hl, hs⟩ | ⟨s, hg, hs⟩ | ⟨hp', -⟩ :=
      examineEntry_cases drive (offset_turned st d (clusterToSec info d)) n
    · rw [given_labelled hl]
      exact displays_skip (hturn.trans hs) (hrest n)
    · rw [hg]
      exact displays_give hg (hturn.trans hs) (hrest (n + 1))
    · rw [hpass] at hp'
      cases hp'

/-- A slot is left behind, and what is in it is handed out. -/
def Leaves (drive : Drive) (info : FatInfo) (p : Place) (o : Option Slot)
    (st : DirEntryIteratorState) : Prop :=
  (o = none ∧ examine drive info p = .skip (st, p.2)) ∨
    ∃ s, o = some s ∧ examine drive info p = .give (s.entry (drive.names p.2)) (st, p.2 + 1)

theorem examine_passed (hb : info.bytsPerSec ≠ 0) (hk : k ≤ st.maxEntryCnt.toNat)
    (hp : ∀ j < k, passed drive.image st.clusterOffset j = true) (n : Nat) :
    (k < st.maxEntryCnt.toNat ∧ passed drive.image st.clusterOffset k = true ∧
      Leaves drive info (before st k, n) (given drive.image st.clusterOffset k)
        (before st (k + 1))) ∨
    (∃ d, k = st.maxEntryCnt.toNat ∧ ¬st.isRootDir = true ∧
      fatEntry drive.image info st.clusterNr = some d ∧ isEoc d = false ∧
      passed drive.image (clusterToSec info d) 65535 = true ∧
      Leaves drive info (before st k, n) (given drive.image (clusterToSec info d) 65535)
        (turned st info d)) ∨
    (Traverses drive.image info (st.isRootDir = true) st.maxEntryCnt.toNat st.clusterOffset
        st.clusterNr ((givens drive.image st.clusterOffset k).map Prod.fst) ∧
      ∃ p, examine drive info (before st k, n) = .stop p) ∨
    examine drive info (before st k, n) = .fail readError := by
  obtain hlt | rfl := Nat.lt_or_eq_of_le hk
  · obtain ⟨hl, hs⟩ | ⟨s, hg, hs⟩ | ⟨-, ⟨hc, p, hs⟩ | hs⟩ := examine_slot drive info hlt n
    · exact .inl ⟨hlt, passed_labelled hl, .inl ⟨given_labelled hl, hs⟩⟩
    · exact .inl ⟨hlt, passed_given hg, .inr ⟨s, hg, hs⟩⟩
    · exact .inr (.inr (.inl ⟨.closes hlt hp hc, p, hs⟩))
    · exact .inr (.inr (.inr hs))
  · by_cases hroot : st.isRootDir = true
    · obtain ⟨p, hs⟩ := (examine_last (n := n) (.inl hroot)).resolve_right (fun h => hb h.1)
      exact .inr (.inr (.inl ⟨.last hp (.inl hroot), p, hs⟩))
    · obtain ⟨-, hs⟩ | ⟨d, p, hd, he, hs⟩ | ⟨d, hd, he, hs⟩ :=
        examine_full drive hb (Bool.not_eq_true _ ▸ hroot) n
      · exact .inr (.inr (.inr hs))
      · exact .inr (.inr (.inl ⟨.last hp (.inr ⟨d, hd, he⟩), p, hs⟩))
      · obtain ⟨hl, hs'⟩ | ⟨s, hg, hs'⟩ | ⟨-, ⟨hc, p, hs'⟩ | hs'⟩ :=
          examineEntry_cases drive (offset_turned st d (clusterToSec info d)) n
        · exact .inr (.inl ⟨d, rfl, hroot, hd, he, passed_labelled hl,
            .inl ⟨given_labelled hl, hs.trans hs'⟩⟩)
        · exact .inr (.inl ⟨d, rfl, hroot, hd, he, passed_given hg,
            .inr ⟨s, hg, hs.trans hs'⟩⟩)
        · exact .inr (.inr (.inl ⟨.astray hroot hp hd he hc, p, hs.trans hs'⟩))
        · exact .inr (.inr (.inr (hs.trans hs')))

/-- What is produced is what the iterator comes past. -/
theorem produces_traverses (hb : info.bytsPerSec ≠ 0) (hk : k ≤ st.maxEntryCnt.toNat)
    (hp : ∀ j < k, passed drive.image st.clusterOffset j = true)
    (h : Produces (examine drive info) (before st k, n) es) :
    ∃ ss, List.Forall₂ (Shows drive) ss es ∧
      Traverses drive.image info (st.isRootDir = true) st.maxEntryCnt.toNat st.clusterOffset
        st.clusterNr ((givens drive.image st.clusterOffset k).map Prod.fst ++ ss) := by
  generalize hq : (before st k, n) = q at h
  induction h generalizing st k n with
  | @skip q q' es hs _ ih =>
    subst hq
    obtain ⟨hlt, hpass, ⟨hg, h⟩ | ⟨s, -, h⟩⟩ | ⟨d, rfl, hroot, hd, he, hpass, ⟨hg, h⟩ | ⟨s, -, h⟩⟩ |
      ⟨-, p, h⟩ | h := examine_passed hb hk hp n <;> cases h.symm.trans hs
    · obtain ⟨ss, hss, ht⟩ := ih hlt (passed_succ hp hpass) rfl
      rw [givens_succ, hg] at ht
      exact ⟨ss, hss, by simpa using ht⟩
    · obtain ⟨ss, hss, ht⟩ := @ih (turned st info d) 0 n (Nat.zero_le _) nofun
        (by rw [turned_before])
      have hnext := Traverses.next hroot hp hd he hpass ht
      rw [hg] at hnext
      exact ⟨ss, hss, by simpa [givens_zero] using hnext⟩
  | @give q e q' es hs _ ih =>
    subst hq
    obtain ⟨hlt, hpass, ⟨-, h⟩ | ⟨s, hg, h⟩⟩ | ⟨d, rfl, hroot, hd, he, hpass, ⟨-, h⟩ | ⟨s, hg, h⟩⟩ |
      ⟨-, p, h⟩ | h := examine_passed hb hk hp n <;> cases h.symm.trans hs
    · obtain ⟨ss, hss, ht⟩ := ih hlt (passed_succ hp hpass) rfl
      rw [givens_succ, hg] at ht
      exact ⟨s :: ss, .cons (given_shows hg _) hss, by simpa using ht⟩
    · obtain ⟨ss, hss, ht⟩ := @ih (turned st info d) 0 (n + 1) (Nat.zero_le _) nofun
        (by rw [turned_before])
      have hnext := Traverses.next hroot hp hd he hpass ht
      rw [hg] at hnext
      exact ⟨s :: ss, .cons (given_shows hg _) hss, by simpa [givens_zero] using hnext⟩
  | stop hs =>
    subst hq
    obtain ⟨-, -, ⟨-, h⟩ | ⟨s, -, h⟩⟩ | ⟨d, -, -, -, -, -, ⟨-, h⟩ | ⟨s, -, h⟩⟩ | ⟨ht, p, h⟩ | h :=
      examine_passed hb hk hp n <;> cases h.symm.trans hs
    exact ⟨[], .nil, by rwa [List.append_nil]⟩

theorem iterator_before {sec : UInt32} (hst : newDirEntryIterator info sec = some st) :
    before st 0 = st := by
  unfold newDirEntryIterator at hst
  split_ifs at hst <;> cases hst <;> rfl

end Ti3.Fat.Traversal
