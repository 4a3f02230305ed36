import Ti3.Fat.Table
import Ti3.Library.Stdio

namespace Ti3.Fat.Listing

open Library.CString Library.CMemory Library.Interaction Library.Determinism Library.Cursor
open DriveLs Image Iterator Table

variable {image : Bytes} {drive : Drive} {info : FatInfo} {st st' : DirEntryIteratorState}
variable {w w' : World} {sec : UInt32} {n : Nat}

/-- The root directory, or a directory of one cluster, with its first sector and
the number of its slots. -/
inductive Compact (image : Bytes) (info : FatInfo) : UInt32 → Nat → Prop
  | root : Compact image info info.firstRootDirSecNum info.rootEntCnt.toNat
  | cluster {c e} : 2 ≤ c → info.secPerClus ≠ 0 → fatEntry image info c = some e →
      isEoc e = true → Compact image info (clusterToSec info c)
        (info.bytsPerSec.toNat * info.secPerClus.toNat / dirEntBytes)

/-- The number of slots that the iterator knows of. -/
def slotCount (info : FatInfo) (sec : UInt32) : Nat :=
  if sec = info.firstRootDirSecNum then info.rootEntCnt.toNat else info.dirEntsPerCluster.toNat

theorem clusterNr_clusterToSec {info : FatInfo} {c : UInt16} (hc : 2 ≤ c)
    (hs : info.secPerClus ≠ 0) :
    ((clusterToSec info c - info.firstDataSector) / info.secPerClus.toUInt32 + 2).toUInt16 = c := by
  have hpos : 0 < info.secPerClus.toNat := by
    rw [Nat.pos_iff_ne_zero]
    exact fun h => hs (UInt8.toNat_inj.mp h)
  have hc' : 2 ≤ c.toNat := UInt16.le_iff_toNat_le.mp hc
  have hlt := c.toNat_lt
  have hspc := info.secPerClus.toNat_lt
  have hne : c ≠ 0 := by
    rintro rfl
    exact absurd hc' (by decide)
  have hmul : (c.toNat - 2) * info.secPerClus.toNat ≤ (2 ^ 16 - 3) * (2 ^ 8 - 1) :=
    Nat.mul_le_mul (by omega) (by omega)
  have htwo : (2 : UInt32) ≤ c.toUInt32 := by
    rw [UInt32.le_iff_toNat_le, UInt16.toNat_toUInt32]
    exact hc'
  have hnat : UInt32.toNat 2 = 2 := rfl
  have hlow : (c.toNat - 2) * info.secPerClus.toNat < 2 ^ 32 := by omega
  rw [clusterToSec, if_neg hne, UInt32.add_sub_cancel, ← UInt16.toNat_inj, UInt32.toNat_toUInt16,
    UInt32.toNat_add, UInt32.toNat_div, UInt32.toNat_mul, UInt32.toNat_sub_of_le _ _ htwo,
    UInt16.toNat_toUInt32, UInt8.toNat_toUInt32, hnat, Nat.mod_eq_of_lt hlow,
    Nat.mul_div_cancel _ hpos]
  omega

theorem iterator_cluster {c : UInt16} (hc : 2 ≤ c) (hs : info.secPerClus ≠ 0)
    (hroot : clusterToSec info c ≠ info.firstRootDirSecNum) :
    newDirEntryIterator info (clusterToSec info c) =
      some ⟨false, info.dirEntsPerCluster, c, secToOffset info (clusterToSec info c), -1⟩ := by
  rw [newDirEntryIterator, if_neg hroot, if_neg hs, clusterNr_clusterToSec hc hs]

theorem iterator_start (h : Compact image info sec n) : ∃ st,
    newDirEntryIterator info sec = some st ∧ before st 0 = st ∧
      st.clusterOffset = secToOffset info sec ∧ st.maxEntryCnt.toNat = slotCount info sec ∧
        Last image info st := by
  rw [slotCount]
  by_cases hroot : sec = info.firstRootDirSecNum
  · rw [newDirEntryIterator, if_pos hroot, if_pos hroot]
    exact ⟨_, rfl, rfl, rfl, rfl, .inl rfl⟩
  · rw [if_neg hroot]
    cases h with
    | root => exact absurd rfl hroot
    | @cluster c e hc hs hfat he =>
      exact ⟨_, iterator_cluster hc hs hroot, rfl, rfl, rfl, .inr ⟨e, hfat, he⟩⟩

/-- Every entry that is returned is in a slot that can be reached. -/
theorem calls_returned {es : List (FatDirInfo × DirEntryIteratorState)}
    (hl : Last drive.image info st) (h₀ : before st 0 = st)
    (h : Calls drive info st w es st' w') :
    ∀ g ∈ es, ∃ i s m, i < st.maxEntryCnt.toNat ∧
      (∀ j < i, passed drive.image st.clusterOffset j = true) ∧
      given drive.image st.clusterOffset i = some s ∧
      g.1 = s.entry (drive.names m) ∧ g.2 = before st (i + 1) := by
  obtain ⟨gs, hg, rfl, -⟩ := calls_gives h
  rw [← h₀] at hg
  intro g hmem
  obtain ⟨q, hq, rfl⟩ := List.mem_map.mp hmem
  exact gives_mem hl hg q hq

/-- Every entry in a slot that can be reached is returned. -/
theorem returned_calls {i : Nat} {s : Slot} (h₀ : before st 0 = st)
    (hi : i < st.maxEntryCnt.toNat)
    (hp : ∀ j < i, passed drive.image st.clusterOffset j = true)
    (hs : given drive.image st.clusterOffset i = some s) (w : World) :
    ∃ es m w', Calls drive info st w (es ++ [(s.entry (drive.names m), before st (i + 1))])
      (before st (i + 1)) w' := by
  obtain ⟨k, hk, hskip, gs, m, hg, -⟩ := passed_gives info (Nat.le_of_lt hi) hp w.entries
  have hfind : Finds (examine drive info) (before st k, m) _ :=
    finds_labelled hk (Nat.le_of_lt hi) hskip (.give (examine_given hi hs))
  rw [h₀] at hg
  have hcalls := gives_calls (.next hg hfind)
  rw [List.map_append] at hcalls
  exact ⟨_, m, _, hcalls⟩

/-- No entry that is returned has been deleted, is a label, or is at or behind a
slot that starts with zero. -/
def Sound (drive : Drive) (info : FatInfo) (sec : UInt32) : Prop :=
  ∀ st w es st' w', newDirEntryIterator info sec = some st → Calls drive info st w es st' w' →
    ∀ g ∈ es, g.1.name.load start ≠ some 0xe5 ∧ g.1.attr &&& 0x08 = 0 ∧
      ∀ j ≤ g.2.entryNr.toNat, drive.image[slotOffset (secToOffset info sec) j]? ≠ some 0

/-- As far as the iterator comes, nothing is deleted, and no label that starts
with zero is in front of an entry. -/
def Clean (image : Bytes) (info : FatInfo) (sec : UInt32) : Prop :=
  ∀ i < slotCount info sec,
    (∀ j < i, passed image (secToOffset info sec) j = true) →
      ∀ s, given image (secToOffset info sec) i = some s → s.first ≠ 0xe5 ∧
        ∀ j < i, image[slotOffset (secToOffset info sec) j]? ≠ some 0

theorem entryNr_returned {i : Nat} (hi : i < st.maxEntryCnt.toNat) :
    (before st (i + 1)).entryNr.toNat = i := by
  have hm := st.maxEntryCnt.toNat_lt
  rw [before_succ, UInt16.toNat_ofNat', Nat.mod_eq_of_lt (by omega)]

/-- The iterator is sound for a directory if and only if nothing in it that it
fails to filter out comes before its end. -/
theorem sound_iff (h : Compact drive.image info sec n) :
    Sound drive info sec ↔ Clean drive.image info sec := by
  obtain ⟨st, hst, h₀, hbase, hcount, hl⟩ := iterator_start h
  constructor
  · intro hsound i hi hp s hs
    rw [← hcount] at hi
    rw [← hbase] at hp hs
    obtain ⟨es, m, w', hc⟩ := returned_calls h₀ hi hp hs ⟨0, 0, []⟩
    obtain ⟨hfirst, -, hzero⟩ := hsound st _ _ _ _ hst hc _
      (List.mem_append_right es (List.mem_singleton.mpr rfl))
    rw [load_entry (slot_name (given_eq.mp hs).1)] at hfirst
    rw [entryNr_returned hi] at hzero
    exact ⟨fun he => hfirst (congrArg some he), fun j hj => hzero j (Nat.le_of_lt hj)⟩
  · intro hclean st₁ w es st' w' hst₁ hc g hg
    cases hst.symm.trans hst₁
    obtain ⟨i, s, m, hi, hp, hs, he, hnr⟩ := calls_returned hl h₀ hc g hg
    have hslot := given_eq.mp hs
    rw [hbase] at hp hs
    obtain ⟨hfirst, hzero⟩ := hclean i (hcount ▸ hi) hp s hs
    rw [he, hnr, entryNr_returned hi, load_entry (slot_name hslot.1)]
    refine ⟨fun h => hfirst (Option.some.inj h), hslot.2.1, fun j hj => ?_⟩
    obtain hj | rfl := Nat.lt_or_eq_of_le hj
    · exact hzero j hj
    · rw [← hbase, slot_first hslot.1]
      exact fun h => hslot.2.2.1 (Option.some.inj h)

theorem sound_iff_small : Sound (small [] []) smallInfo 3 ↔ Clean (small [] []).image smallInfo 3 :=
  sound_iff .root

def deleted : Drive :=
  small (List.replicate 32 0) [record (0xe5 :: ascii "LD     TXT") 0x20 0 0, List.replicate 32 0]

/-- An entry that has been deleted is returned. -/
theorem deleted_returned : Reads deleted readFatInfo (some smallInfo) ∧
    Compact deleted.image smallInfo 3 2 ∧ ¬Sound deleted smallInfo 3 := by
  refine ⟨small_reads _ _, .root, fun hsound => ?_⟩
  have hs : given deleted.image 96 0 = some ⟨0xe5 :: ascii "LD     TXT", 0x20, 0⟩ := by
    decide +kernel
  have h₀ : before ⟨true, 2, -1, 96, -1⟩ 0 = ⟨true, 2, -1, 96, -1⟩ := rfl
  obtain ⟨es, m, w', hc⟩ := returned_calls h₀ (by decide) (fun _ h => by cases h) hs ⟨0, 0, []⟩
  exact (hsound _ _ _ _ _ rfl hc _ (List.mem_append_right es (List.mem_singleton.mpr rfl))).1
    (load_entry (by decide) _)

theorem lineUpTo_eq (k : Nat) (s : Bytes) : lineUpTo k s = Library.Stdio.lineWithin k s := by
  induction k generalizing s with
  | zero => cases s <;> rfl
  | succ k ih =>
    cases s with
    | nil => rfl
    | cons b s =>
      rw [lineUpTo, Library.Stdio.lineWithin, ih]
      rfl

theorem lineUpTo_whole {s : Bytes} {k : Nat} (hs : newline ∉ s) (hk : s.length ≤ k) :
    lineUpTo k s = s :=
  (lineUpTo_eq k s).trans (Library.Stdio.lineWithin_last hs hk)

theorem lineUpTo_newline {u v : Bytes} {k : Nat} (hu : newline ∉ u) (hk : u.length < k) :
    lineUpTo k (u ++ newline :: v) = u ++ [newline] :=
  (lineUpTo_eq k _).trans (Library.Stdio.lineWithin_line hu hk v)

theorem entry_name {s : Slot} (hl : s.name.length = 11) (hs : newline ∉ s.name)
    (m : Buffer nameBytes) : (s.entry m).name.bytes.take 11 = s.name := by
  have hline : lineUpTo 11 s.name = s.name := lineUpTo_whole hs (Nat.le_of_eq hl)
  simp only [Slot.entry, Buffer.fill, hline, List.append_assoc, List.take_take]
  exact List.take_left' hl

/-- An entry in a slot of the directory that is in use. -/
structure Live (image : Bytes) (base : UInt32) (n k : Nat) (s : Slot) : Prop where
  inside : k < n
  slot : slotAt image (slotOffset base k) = some s
  plain : s.attr &&& 0x08 = 0
  kept : s.first ≠ 0xe5
  used : ∀ j ≤ k, ∃ s, slotAt image (slotOffset base j) = some s ∧ s.first ≠ 0

/-- Whatever memory holds: every live entry is returned as it is in the image, and
nothing in front of it is taken for the end. -/
def Complete (image : Bytes) (info : FatInfo) (sec : UInt32) (n : Nat) : Prop :=
  ∀ drive : Drive, drive.image = image → ∀ k s, Live image (secToOffset info sec) n k s →
    ∀ w, ∃ st es e st' w', newDirEntryIterator info sec = some st ∧
      Calls drive info st w (es ++ [(e, st')]) st' w' ∧ st'.entryNr.toNat = k ∧
      e.name.bytes.take 11 = s.name ∧ e.attr = s.attr ∧ e.fstClusLO = s.fstClusLO

theorem length_name {o : Nat} {s : Slot} (hs : slotAt image o = some s) : s.name.length = 11 := by
  obtain ⟨ha, -, hname⟩ := slotAt_eq.mp hs
  have ho := (List.getElem?_eq_some_iff.mp ha).1
  rw [hname, List.length_take, List.length_drop]
  omega

end Ti3.Fat.Listing
