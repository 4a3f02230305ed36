import Ti3.Fat.Traversal
import Ti3.Fat.Listing

namespace Ti3.Fat.Chain

open Library.CString Library.CMemory Library.Interaction Library.Determinism Library.Cursor
open DriveLs Image Iterator Table Traversal Listing

variable {image : Bytes} {drive : Drive} {info : FatInfo} {st st' : DirEntryIteratorState}
variable {c d : UInt16} {cs : List UInt16} {ss : List Slot} {base : UInt32} {k : Nat}

/-- Where a cluster of the data area starts. -/
def clusterStart (info : FatInfo) (c : UInt16) : Nat :=
  (info.firstDataSector.toNat + (c.toNat - 2) * info.secPerClus.toNat) * info.bytsPerSec.toNat

def entriesPerCluster (info : FatInfo) : Nat :=
  info.bytsPerSec.toNat * info.secPerClus.toNat / dirEntBytes

theorem clusterToSec_toNat (hc : 2 ≤ c) :
    (clusterToSec info c).toNat =
      (info.firstDataSector.toNat + (c.toNat - 2) * info.secPerClus.toNat) % 2 ^ 32 := by
  have hc' : 2 ≤ c.toNat := UInt16.le_iff_toNat_le.mp hc
  have hne : c ≠ 0 := by
    rintro rfl
    exact absurd hc' (by decide)
  have htwo : (2 : UInt32) ≤ c.toUInt32 := by
    rw [UInt32.le_iff_toNat_le, UInt16.toNat_toUInt32]
    exact hc'
  have hnat : UInt32.toNat 2 = 2 := rfl
  rw [clusterToSec, if_neg hne, UInt32.toNat_add, UInt32.toNat_mul,
    UInt32.toNat_sub_of_le _ _ htwo, UInt16.toNat_toUInt32, UInt8.toNat_toUInt32, hnat,
    Nat.mod_add_mod, Nat.add_comm]

theorem slotOffset_cluster {i : Nat} (hc : 2 ≤ c)
    (hlow : clusterStart info c + dirEntBytes * i < 2 ^ 32) :
    slotOffset (secToOffset info (clusterToSec info c)) i =
      clusterStart info c + dirEntBytes * i := by
  rw [dirEntBytes] at hlow ⊢
  have hnat : UInt32.toNat 32 = 32 := rfl
  have hi : i < 2 ^ 32 := by omega
  rw [slotOffset, UInt32.toNat_add, UInt32.toNat_mul, secToOffset, UInt32.toNat_mul,
    clusterToSec_toNat hc, UInt16.toNat_toUInt32, UInt32.toNat_ofNat', hnat, Nat.mod_mul_mod,
    ← clusterStart, Nat.mod_eq_of_lt hi, Nat.mul_comm i]
  omega

/-- A live entry that has attributes and no newline in its name. -/
structure Usual (s : Slot) : Prop where
  used : s.first ≠ 0
  kept : s.first ≠ 0xe5
  plain : s.attr &&& 0x08 = 0
  attributed : s.attr ≠ 0
  legible : newline ∉ s.name

/-- A cluster of the data area with the entries in its first slots. -/
structure Cluster (image : Bytes) (info : FatInfo) (c : UInt16) (ss : List Slot) : Prop where
  number : 2 ≤ c
  inside : clusterStart info c + info.bytsPerSec.toNat * info.secPerClus.toNat ≤ image.length
  low : clusterStart info c + info.bytsPerSec.toNat * info.secPerClus.toNat ≤ 2 ^ 32
  few : ss.length ≤ entriesPerCluster info
  entries : ∀ i (h : i < ss.length),
    slotAt image (clusterStart info c + dirEntBytes * i) = some ss[i]
  usual : ∀ s ∈ ss, Usual s

/-- The clusters of a directory and its entries: every cluster but the last is
full, and behind the last entry is a slot that starts with zero or the end. -/
inductive Directory (image : Bytes) (info : FatInfo) : List UInt16 → List Slot → Prop
  | last {c ss e} : Cluster image info c ss →
      (ss.length = entriesPerCluster info ∨
        image[clusterStart info c + dirEntBytes * ss.length]? = some 0) →
      fatEntry image info c = some e → isEoc e = true → Directory image info [c] ss
  | next {c d cs ss ts} : Cluster image info c ss → ss.length = entriesPerCluster info →
      fatEntry image info c = some d → isEoc d = false → c ∉ d :: cs →
      Directory image info (d :: cs) ts → Directory image info (c :: d :: cs) (ss ++ ts)

/-- What an entry shows of the image. -/
def shown (e : FatDirInfo) : Slot := ⟨e.name.bytes.take 11, e.attr, e.fstClusLO⟩

/-- Successive calls return exactly these entries, and then the end. -/
def Delivers (drive : Drive) (info : FatInfo) (c : UInt16) (ss : List Slot) : Prop :=
  ∀ w, ∃ st es st' w', newDirEntryIterator info (clusterToSec info c) = some st ∧
    Calls drive info st w es st' w' ∧ Finished drive info st' w' ∧
      es.map (fun g => shown g.1) = ss

/-- Behind the first `u` of `m` slots are labels up to the end. -/
def EndsBehind (image : Bytes) (base : UInt32) (m u : Nat) : Prop :=
  ∃ j, u ≤ j ∧ j ≤ m ∧ (∀ i, u ≤ i → i < j → labelled image base i = true) ∧
    (j = m ∨ Closes image base j)

theorem shown_entry {s : Slot} {o : Nat} (hs : slotAt image o = some s) (hu : newline ∉ s.name)
    (m : Buffer nameBytes) : shown (s.entry m) = s := by
  rw [shown, entry_name (length_name hs) hu]
  rfl

theorem givens_map (h : ∀ i (hi : i < ss.length), given image base i = some ss[i])
    (hk : k ≤ ss.length) : (givens image base k).map Prod.fst = ss.take k := by
  induction k with
  | zero => rfl
  | succ k ih =>
    rw [givens_succ, h k hk, List.map_append, ih (Nat.le_of_succ_le hk),
      List.take_succ_eq_append_getElem hk]
    rfl

theorem givens_length (h : ∀ i (hi : i < ss.length), given image base i = some ss[i])
    (hk : k ≤ ss.length) : (givens image base k).length = k := by
  rw [← List.length_map Prod.fst, givens_map h hk, List.length_take, Nat.min_eq_left hk]

theorem givens_mono {j : Nat} (h : j ≤ k) :
    (givens image base j).length ≤ (givens image base k).length := by
  induction k, h using Nat.le_induction with
  | base => exact Nat.le_refl _
  | succ k _ ih =>
    rw [givens_succ, List.length_append]
    omega

theorem cluster_given (h : Cluster image info c ss)
    (i : Nat) (hi : i < ss.length) :
    given image (secToOffset info (clusterToSec info c)) i = some ss[i] := by
  have hfew := h.few
  have hlow := h.low
  have hsize : dirEntBytes * i < info.bytsPerSec.toNat * info.secPerClus.toNat := by
    rw [entriesPerCluster, dirEntBytes] at hfew
    rw [dirEntBytes]
    omega
  obtain ⟨hfirst, -, hplain, hattr, -⟩ := h.usual ss[i] (List.getElem_mem hi)
  rw [given_eq, slotOffset_cluster h.number (by omega)]
  exact ⟨h.entries i hi, hplain, hfirst, fun hend => hattr hend.1⟩

/-- A name that is shown without a newline is as it is in the image. -/
theorem shown_unique {s s' : Slot} {m : Buffer nameBytes} (hl : s'.name.length = 11)
    (hn : newline ∉ s.name) (h : shown (s'.entry m) = s) : s' = s := by
  subst h
  cases hcut : cut newline s'.name with
  | none =>
    rw [shown, entry_name hl (cut_eq_none.mp hcut)]
    rfl
  | some p =>
    obtain ⟨u, v⟩ := p
    obtain ⟨hs, hu⟩ := cut_eq_some.mp hcut
    rw [hs, List.length_append, List.length_cons] at hl
    have hline : lineUpTo 11 s'.name = u ++ [newline] := hs ▸ lineUpTo_newline hu (by omega)
    obtain ⟨k, hk⟩ : ∃ k, min 11 nameBytes - u.length = k + 1 :=
      ⟨10 - u.length, by simp only [nameBytes]; omega⟩
    refine absurd ?_ hn
    simp only [shown, Slot.entry, Buffer.fill, hline, List.append_assoc, List.take_take]
    rw [List.take_append, hk]
    exact List.mem_append_right _ (List.mem_cons_self ..)

theorem shows_unique {es : List FatDirInfo} {ss' : List Slot}
    (h : List.Forall₂ (Shows drive) ss' es) (hn : ∀ s ∈ ss, newline ∉ s.name)
    (hmap : es.map shown = ss) : ss' = ss := by
  induction h generalizing ss with
  | nil => exact hmap
  | cons hs _ ih =>
    obtain ⟨⟨o, ho⟩, m, rfl⟩ := hs
    rw [List.map_cons] at hmap
    subst hmap
    have hhead := shown_unique (length_name ho) (hn _ (List.mem_cons_self ..)) rfl
    rw [← hhead, ih (fun s hs => hn s (List.mem_cons_of_mem _ hs)) rfl]

theorem shows_shown {es : List FatDirInfo} (h : List.Forall₂ (Shows drive) ss es)
    (hn : ∀ s ∈ ss, newline ∉ s.name) : es.map shown = ss := by
  induction h with
  | nil => rfl
  | cons hs _ ih =>
    obtain ⟨⟨o, ho⟩, m, rfl⟩ := hs
    rw [List.map_cons, shown_entry ho (hn _ (List.mem_cons_self ..)),
      ih (fun s hs => hn s (List.mem_cons_of_mem _ hs))]

/-- Entries without newlines in their names are delivered if and only if the iterator
comes past them. -/
theorem delivers_traverses (hb : info.bytsPerSec ≠ 0)
    (hst : newDirEntryIterator info (clusterToSec info c) = some st)
    (hn : ∀ s ∈ ss, newline ∉ s.name) :
    Delivers drive info c ss ↔ Traverses drive.image info (st.isRootDir = true)
      st.maxEntryCnt.toNat st.clusterOffset st.clusterNr ss := by
  have h₀ := iterator_before hst
  constructor
  · intro h
    obtain ⟨st₁, gs, st', w', hst₁, hc, hfin, hmap⟩ := h ⟨0, 0, []⟩
    cases hst.symm.trans hst₁
    have hp := calls_produces.mp ⟨gs, st', w', hc, hfin, rfl⟩
    rw [← h₀] at hp
    obtain ⟨ss', hss, ht⟩ := produces_traverses hb (Nat.zero_le _) nofun hp
    rw [← shows_unique hss hn (by rw [List.map_map]; exact hmap)]
    exact ht
  · intro h w
    obtain ⟨es, hp, hes⟩ := traverses_displays hb h rfl rfl rfl w.entries
    rw [h₀] at hp
    obtain ⟨gs, st', w', hc, hfin, rfl⟩ := calls_produces.mpr hp
    refine ⟨st, gs, st', w', hst, hc, hfin, ?_⟩
    rw [← shows_shown hes hn, List.map_map]
    rfl

theorem traverses_root {root : Prop} {m : Nat} (hr : root)
    (h : Traverses image info root m base c ss) (d : UInt16) :
    Traverses image info root m base d ss := by
  cases h with
  | closes hk hp hc => exact .closes hk hp hc
  | last hp _ => exact .last hp (.inl hr)
  | astray hn | next hn => exact absurd hr hn

/-- If no cluster follows, the iterator comes past the entries and to an end. -/
theorem traverses_last {root : Prop} {m : Nat}
    (hl : root ∨ ∃ e, fatEntry image info c = some e ∧ isEoc e = true)
    (hgiven : ∀ i (hi : i < ss.length), given image base i = some ss[i]) :
    Traverses image info root m base c ss ↔ EndsBehind image base m ss.length := by
  constructor
  · intro h
    obtain ⟨k, hk, hp, hmap, hend⟩ : ∃ k ≤ m, (∀ j < k, passed image base j = true) ∧
        (givens image base k).map Prod.fst = ss ∧ (k = m ∨ Closes image base k) := by
      cases h with
      | @closes _ _ k hk hp hc => exact ⟨k, Nat.le_of_lt hk, hp, rfl, .inr hc⟩
      | last hp _ => exact ⟨m, Nat.le_refl m, hp, rfl, .inl rfl⟩
      | astray hn _ hd he | next hn _ hd he =>
        obtain ⟨e, hd', he'⟩ := hl.resolve_left hn
        cases hd.symm.trans hd'
        cases he.symm.trans he'
    have hlength : (givens image base k).length = ss.length := by
      rw [← hmap, List.length_map]
    have huk : ss.length ≤ k := by
      by_contra hku
      rw [givens_length hgiven (by omega)] at hlength
      omega
    refine ⟨k, huk, hk, fun i hui hik => ?_, hend⟩
    refine (Bool.or_eq_true_iff.mp (hp i hik)).resolve_right (fun hsome => ?_)
    -- an entry behind the last one would be returned too
    obtain ⟨s, hs⟩ := Option.isSome_iff_exists.mp hsome
    have hmore : (givens image base (i + 1)).length = (givens image base i).length + 1 := by
      rw [givens_succ, hs, List.length_append]
      rfl
    have hu := givens_length hgiven (Nat.le_refl _)
    have hui' : _ ≤ (givens image base i).length := givens_mono hui
    have hik' : (givens image base (i + 1)).length ≤ ss.length := hlength ▸ givens_mono hik
    omega
  · rintro ⟨j, huj, hj, hskip, hend⟩
    have hp (i : Nat) (hi : i < j) : passed image base i = true := by
      obtain hiu | hui := Nat.lt_or_ge i ss.length
      · exact passed_given (hgiven i hiu)
      · exact passed_labelled (hskip i hui hi)
    have hmap : (givens image base j).map Prod.fst = ss := by
      rw [givens_labelled huj hskip, givens_map hgiven (Nat.le_refl _), List.take_length]
    obtain hlt | rfl := Nat.lt_or_eq_of_le hj
    · rw [← hmap]
      exact .closes hlt hp (hend.resolve_left (Nat.ne_of_lt hlt))
    · rw [← hmap]
      exact .last hp hl

theorem directory_legible (h : Directory image info cs ss) : ∀ s ∈ ss, newline ∉ s.name := by
  induction h with
  | last hc => exact fun s hs => (hc.usual s hs).legible
  | next hc _ _ _ _ _ ih =>
    intro s hs
    obtain hs | hs := List.mem_append.mp hs
    · exact (hc.usual s hs).legible
    · exact ih s hs

/-- The entries of a directory are returned if and only if they are in the places the
iterator comes past. In a directory of one cluster that is so if it finds the end
behind them. -/
theorem delivers_iff {cs : List UInt16} (hb : info.bytsPerSec ≠ 0) (hs : info.secPerClus ≠ 0)
    (h : Directory drive.image info (c :: cs) ss) :
    (Delivers drive info c ss ↔
      Traverses drive.image info (clusterToSec info c = info.firstRootDirSecNum)
        (slotCount info (clusterToSec info c)) (secToOffset info (clusterToSec info c)) c ss) ∧
    (cs = [] → (Delivers drive info c ss ↔
      EndsBehind drive.image (secToOffset info (clusterToSec info c))
        (slotCount info (clusterToSec info c)) ss.length)) := by
  have hn := directory_legible h
  have hc : 2 ≤ c := by
    cases h with
    | last hc | next hc => exact hc.number
  have htraverses : Delivers drive info c ss ↔
      Traverses drive.image info (clusterToSec info c = info.firstRootDirSecNum)
        (slotCount info (clusterToSec info c)) (secToOffset info (clusterToSec info c)) c ss := by
    by_cases hroot : clusterToSec info c = info.firstRootDirSecNum
    · have hst : newDirEntryIterator info (clusterToSec info c) = some
          ⟨true, info.rootEntCnt, -1, secToOffset info (clusterToSec info c), -1⟩ := if_pos hroot
      rw [delivers_traverses hb hst hn, slotCount, if_pos hroot, eq_true hroot, eq_self]
      exact ⟨fun h => traverses_root trivial h c, fun h => traverses_root trivial h _⟩
    · rw [delivers_traverses hb (iterator_cluster hc hs hroot) hn, slotCount, if_neg hroot,
        eq_false hroot]
      simp only [Bool.false_eq_true]
  refine ⟨htraverses, fun hcs => htraverses.trans ?_⟩
  subst hcs
  cases h with
  | last hc _ hfat he => exact traverses_last (.inr ⟨_, hfat, he⟩) (cluster_given hc)

theorem cluster_single {s : Slot} (hc : 2 ≤ c) (hinfo : entriesPerCluster info = 1)
    (hin : clusterStart info c + info.bytsPerSec.toNat * info.secPerClus.toNat ≤ image.length)
    (hlow : clusterStart info c + info.bytsPerSec.toNat * info.secPerClus.toNat ≤ 2 ^ 32)
    (hs : slotAt image (clusterStart info c) = some s) (hu : Usual s) :
    Cluster image info c [s] where
  number := hc
  inside := hin
  low := hlow
  few := Nat.le_of_eq hinfo.symm
  entries i hi := by
    obtain rfl : i = 0 := Nat.lt_one_iff.mp hi
    exact hs
  usual := List.forall_mem_singleton.mpr hu

def first : Slot := ⟨ascii "FIRST   TXT", 0x20, 0⟩
def second : Slot := ⟨ascii "SECOND  TXT", 0x20, 0⟩

/-- A directory in the clusters 2 and 3, each of which has room for one entry. -/
def twoClusters : Drive :=
  small ([0, 0, 0, 0, 3, 0, 0xff, 0xff] ++ List.replicate 24 0)
    [List.replicate 64 0, record first.name 0x20 0 0, record second.name 0x20 0 0]

theorem twoClusters_last : Directory twoClusters.image smallInfo [3] [second] := by
  have hfat : fatEntry twoClusters.image smallInfo 3 = some 0xffff := by decide +kernel
  have hcluster : Cluster twoClusters.image smallInfo 3 [second] :=
    cluster_single (by decide) rfl (by decide +kernel) (by decide +kernel) (by decide +kernel)
      ⟨by decide, by decide, by decide, by decide, by decide⟩
  exact .last hcluster (.inl rfl) hfat rfl

theorem delivers_iff_last : Delivers twoClusters smallInfo 3 [second] ↔
    EndsBehind twoClusters.image (secToOffset smallInfo 6) 1 1 :=
  (delivers_iff (by decide) (by decide) twoClusters_last).2 rfl

/-- The second of two clusters is not read. -/
theorem second_cluster_lost : Reads twoClusters readFatInfo (some smallInfo) ∧
    Directory twoClusters.image smallInfo [2, 3] [first, second] ∧
      ¬Delivers twoClusters smallInfo 2 [first, second] := by
  have hfirst : Cluster twoClusters.image smallInfo 2 [first] :=
    cluster_single (by decide) rfl (by decide +kernel) (by decide +kernel) (by decide +kernel)
      ⟨by decide, by decide, by decide, by decide, by decide⟩
  have hfat : fatEntry twoClusters.image smallInfo 2 = some 3 := by decide +kernel
  have hnone : slotAt twoClusters.image (slotOffset (clusterToSec smallInfo 3) 65535) = none := by
    decide +kernel
  have hdir : Directory twoClusters.image smallInfo [2, 3] [first, second] :=
    .next hfirst rfl hfat rfl (by decide) twoClusters_last
  refine ⟨small_reads _ _, hdir, fun h => ?_⟩
  have hroot : clusterToSec smallInfo 2 ≠ smallInfo.firstRootDirSecNum := by decide
  have ht := (delivers_traverses (by decide) (iterator_cluster (by decide) (by decide) hroot)
    (directory_legible hdir)).mp h
  generalize [first, second] = ss at ht
  cases ht with
  | closes hk _ hclose =>
    obtain rfl := Nat.lt_one_iff.mp hk
    have hpass := passed_given (cluster_given hfirst 0 (by decide))
    rw [closes_unpassed hclose] at hpass
    cases hpass
  | last _ hend =>
    obtain hroot | ⟨e, he, heoc⟩ := hend
    · cases hroot
    · cases hfat.symm.trans he
      cases heoc
  | astray _ _ hd _ hclose =>
    cases hfat.symm.trans hd
    obtain ⟨s, hs, -⟩ := hclose
    cases hnone.symm.trans hs
  | next _ _ hd _ hpass =>
    cases hfat.symm.trans hd
    have hunpassed : passed twoClusters.image (clusterToSec smallInfo 3) 65535 = false := by
      decide +kernel
    rw [hunpassed] at hpass
    cases hpass

end Ti3.Fat.Chain
