import Ti3.Fat.Chain

namespace Ti3.Fat.Geometry

open Library.CString Library.CMemory Library.Interaction Library.Determinism
open DriveLs Image Iterator Table Listing Chain

/-- The number of sectors of the root directory. -/
def rootDirSectors (info : FatInfo) : Nat :=
  (info.rootEntCnt.toNat * 32 + (info.bytsPerSec.toNat - 1)) / info.bytsPerSec.toNat

/-- The fields that are calculated go with those that are read. -/
structure Calculated (info : FatInfo) : Prop where
  sectors : info.bytsPerSec ≠ 0
  root : info.firstRootDirSecNum = info.rsvdSecCnt.toUInt32 + info.numFATs.toUInt32 * info.fatSize
  data : info.firstDataSector = info.firstRootDirSecNum + UInt32.ofNat (rootDirSectors info)
  entries : info.dirEntsPerCluster = UInt16.ofNat (entriesPerCluster info)

variable {σ : Type} {env : Environment Call Answer σ} {w w' : σ} {info : FatInfo} {c d : UInt16}

/-- Whatever the header holds, the calculated fields go with it. -/
theorem readFatInfo_calculated (hr : Runs env readFatInfo w (.returned info) w') :
    Calculated info := by
  obtain ⟨bytsPerSec, _, _, hr⟩ := returned_bind hr
  obtain ⟨secPerClus, _, _, hr⟩ := returned_bind hr
  obtain ⟨rsvdSecCnt, _, _, hr⟩ := returned_bind hr
  obtain ⟨numFATs, _, _, hr⟩ := returned_bind hr
  obtain ⟨rootEntCnt, _, _, hr⟩ := returned_bind hr
  obtain ⟨fatsz16, _, _, hr⟩ := returned_bind hr
  obtain ⟨fatSize, _, _, hr⟩ := returned_bind hr
  by_cases hb : bytsPerSec = 0
  · rw [if_pos hb] at hr
    exact absurd hr not_returned_halt
  · rw [if_neg hb] at hr
    obtain ⟨rfl, -⟩ := returned_done hr
    exact ⟨hb, rfl, rfl, rfl⟩

theorem bytsPerSec_pos (h : Calculated info) : 0 < info.bytsPerSec.toNat := by
  rw [Nat.pos_iff_ne_zero]
  exact fun hb => h.sectors (UInt16.toNat_inj.mp hb)

theorem rootDirSectors_le (h : Calculated info) :
    rootDirSectors info ≤ info.rootEntCnt.toNat * 32 := by
  have hb := bytsPerSec_pos h
  have hmul : info.rootEntCnt.toNat * 32 ≤ info.bytsPerSec.toNat * (info.rootEntCnt.toNat * 32) :=
    Nat.le_mul_of_pos_left _ hb
  rw [rootDirSectors, ← Nat.lt_succ_iff, Nat.div_lt_iff_lt_mul hb, Nat.succ_mul,
    Nat.mul_comm (_ * 32)]
  omega

theorem rootDirSectors_pos (h : Calculated info) (he : info.rootEntCnt ≠ 0) :
    0 < rootDirSectors info := by
  have hb := bytsPerSec_pos h
  have hpos : 0 < info.rootEntCnt.toNat := by
    rw [Nat.pos_iff_ne_zero]
    exact fun hz => he (UInt16.toNat_inj.mp hz)
  apply Nat.div_pos _ hb
  omega

/-- How far behind the start of the root directory a cluster starts. -/
def distance (info : FatInfo) (c : UInt16) : Nat :=
  rootDirSectors info + (c.toNat - 2) * info.secPerClus.toNat

theorem distance_lt (h : Calculated info) (c : UInt16) : distance info c < 2 ^ 25 := by
  have hroot := rootDirSectors_le h
  have he := info.rootEntCnt.toNat_lt
  have hc := c.toNat_lt
  have hs := info.secPerClus.toNat_lt
  have hmul : (c.toNat - 2) * info.secPerClus.toNat ≤ (2 ^ 16 - 3) * (2 ^ 8 - 1) :=
    Nat.mul_le_mul (by omega) (by omega)
  rw [distance]
  omega

theorem clusterToSec_distance (h : Calculated info) (hc : 2 ≤ c) :
    (clusterToSec info c).toNat =
      (info.firstRootDirSecNum.toNat + distance info c) % 2 ^ 32 := by
  have hlt := distance_lt h c
  rw [clusterToSec_toNat hc, h.data, UInt32.toNat_add, UInt32.toNat_ofNat', distance]
  rw [distance] at hlt
  omega

theorem clusterToSec_ne_root (h : Calculated info) (he : info.rootEntCnt ≠ 0) (hc : 2 ≤ c) :
    clusterToSec info c ≠ info.firstRootDirSecNum := by
  intro heq
  have hsec := clusterToSec_distance h hc
  have hlt := distance_lt h c
  have hpos : 0 < distance info c := Nat.lt_of_lt_of_le (rootDirSectors_pos h he)
    (Nat.le_add_right _ _)
  have hroot := info.firstRootDirSecNum.toNat_lt
  rw [heq] at hsec
  omega

theorem clusterToSec_injective (hs : info.secPerClus ≠ 0) (hc : 2 ≤ c)
    (hd : 2 ≤ d) (heq : clusterToSec info c = clusterToSec info d) : c = d := by
  rw [← clusterNr_clusterToSec hc hs, heq, clusterNr_clusterToSec hd hs]

/-- A directory is known by the number of its first sector. -/
structure Recovered (info : FatInfo) : Prop where
  cluster : ∀ c : UInt16, 2 ≤ c → ∃ st, newDirEntryIterator info (clusterToSec info c) = some st ∧
    st.isRootDir = false ∧ st.clusterNr = c
  root : ∃ st, newDirEntryIterator info (clusterToSec info 0) = some st ∧ st.isRootDir = true
  apart : ∀ c d : UInt16, 2 ≤ c → 2 ≤ d → clusterToSec info c = clusterToSec info d → c = d
  apart_root : ∀ c : UInt16, 2 ≤ c → clusterToSec info c ≠ clusterToSec info 0

theorem directories_recovered (hr : Runs env readFatInfo w (.returned info) w')
    (hs : info.secPerClus ≠ 0) (he : info.rootEntCnt ≠ 0) : Recovered info := by
  have h := readFatInfo_calculated hr
  refine ⟨fun c hc => ?_, ?_, fun c d hc hd => clusterToSec_injective hs hc hd, fun c hc => ?_⟩
  · exact ⟨_, iterator_cluster hc hs (clusterToSec_ne_root h he hc), rfl, rfl⟩
  · exact ⟨_, if_pos rfl, rfl⟩
  · exact clusterToSec_ne_root h he hc

theorem directories_recovered_small : Recovered smallInfo :=
  directories_recovered (small_reads [] [] ⟨0, 0, []⟩) (by decide) (by decide)

section

variable {k : Nat}

def rootSector (info : FatInfo) : Nat :=
  info.rsvdSecCnt.toNat + info.numFATs.toNat * info.fatSize.toNat

def clusterSector (info : FatInfo) (c : UInt16) : Nat := rootSector info + distance info c

def entryOffset (info : FatInfo) (c : UInt16) (k : Nat) : Nat :=
  clusterSector info c * info.bytsPerSec.toNat + dirEntBytes * k

/-- The results of the calculations for an entry of a cluster are the exact ones. -/
structure Exact (info : FatInfo) (c : UInt16) (k : Nat) : Prop where
  sector : (clusterToSec info c).toNat = clusterSector info c
  start : (secToOffset info (clusterToSec info c)).toNat =
    clusterSector info c * info.bytsPerSec.toNat
  entries : info.dirEntsPerCluster.toNat = entriesPerCluster info
  entry : ∃ st, newDirEntryIterator info (clusterToSec info c) = some st ∧
    offset { st with entryNr := UInt16.ofNat k } = entryOffset info c k

theorem rootSector_eq (h : Calculated info) :
    info.firstRootDirSecNum.toNat = rootSector info % 2 ^ 32 := by
  rw [h.root, UInt32.toNat_add, UInt32.toNat_mul, UInt16.toNat_toUInt32, UInt8.toNat_toUInt32,
    rootSector, Nat.add_mod_mod]

theorem clusterSector_eq (h : Calculated info) (hc : 2 ≤ c) :
    (clusterToSec info c).toNat = clusterSector info c % 2 ^ 32 := by
  rw [clusterToSec_distance h hc, rootSector_eq h, clusterSector, Nat.mod_add_mod]

/-- With a FAT size of 16 bits the sector numbers never wrap. -/
theorem clusterSector_lt (h : Calculated info) (hf : info.fatSize.toNat < 2 ^ 16) :
    clusterSector info c < 2 ^ 32 := by
  have hr := info.rsvdSecCnt.toNat_lt
  have hn := info.numFATs.toNat_lt
  have hlt := distance_lt h c
  have hmul : info.numFATs.toNat * info.fatSize.toNat ≤ (2 ^ 8 - 1) * (2 ^ 16 - 1) :=
    Nat.mul_le_mul (by omega) (by omega)
  rw [clusterSector, rootSector]
  omega

theorem iterator_offset (info : FatInfo) {sec : UInt32} (hs : info.secPerClus ≠ 0) : ∃ st,
    newDirEntryIterator info sec = some st ∧ st.clusterOffset = secToOffset info sec := by
  by_cases hroot : sec = info.firstRootDirSecNum
  · exact ⟨_, if_pos hroot, rfl⟩
  · rw [newDirEntryIterator, if_neg hroot, if_neg hs]
    exact ⟨_, rfl, rfl⟩

theorem entries_eq_iff (h : Calculated info) :
    info.dirEntsPerCluster.toNat = entriesPerCluster info ↔
      info.bytsPerSec.toNat * info.secPerClus.toNat < 2 ^ 21 := by
  rw [h.entries, UInt16.toNat_ofNat', Nat.mod_eq_iff_lt (by decide), entriesPerCluster,
    Nat.div_lt_iff_lt_mul (by decide)]
  exact Iff.rfl

theorem clusterSector_le (h : Calculated info) : clusterSector info c ≤ entryOffset info c k :=
  Nat.le_add_right_of_le (Nat.le_mul_of_pos_right _ (bytsPerSec_pos h))

/-- Where the offset has 32 bits, so do all numbers on the way to it. -/
theorem entryOffset_eq (h : Calculated info) (hc : 2 ≤ c) (hk : k < 2 ^ 16)
    (hlow : entryOffset info c k < 2 ^ 32) :
    (secToOffset info (clusterToSec info c)).toNat =
      clusterSector info c * info.bytsPerSec.toNat ∧
    (secToOffset info (clusterToSec info c) + (UInt16.ofNat k).toUInt32 * 32).toNat =
      entryOffset info c k := by
  have hsec : (clusterToSec info c).toNat = clusterSector info c := by
    rw [clusterSector_eq h hc, Nat.mod_eq_of_lt (Nat.lt_of_le_of_lt (clusterSector_le h) hlow)]
  rw [entryOffset, dirEntBytes] at hlow ⊢
  have hstart : (secToOffset info (clusterToSec info c)).toNat =
      clusterSector info c * info.bytsPerSec.toNat := by
    rw [secToOffset, UInt32.toNat_mul, hsec, UInt16.toNat_toUInt32]
    exact Nat.mod_eq_of_lt (by omega)
  have hnat : UInt32.toNat 32 = 32 := rfl
  refine ⟨hstart, ?_⟩
  rw [UInt32.toNat_add, UInt32.toNat_mul, UInt16.toNat_toUInt32, UInt16.toNat_ofNat', hstart, hnat]
  omega

/-- The results are exact where the entries of a cluster can be counted with 16 bits and
the offset of the entry has 32 bits. -/
theorem exact_iff (hr : Runs env readFatInfo w (.returned info) w')
    (hf : info.fatSize.toNat < 2 ^ 16) (hc : 2 ≤ c) (hk : k < entriesPerCluster info) :
    Exact info c k ↔ info.bytsPerSec.toNat * info.secPerClus.toNat < 2 ^ 21 ∧
      entryOffset info c k < 2 ^ 32 := by
  have h := readFatInfo_calculated hr
  constructor
  · intro he
    refine ⟨(entries_eq_iff h).mp he.entries, ?_⟩
    obtain ⟨st, -, ho⟩ := he.entry
    rw [← ho]
    exact UInt32.toNat_lt _
  · rintro ⟨hsize, hlow⟩
    have hk' : k < 2 ^ 16 := by
      rw [entriesPerCluster, dirEntBytes] at hk
      omega
    have hs : info.secPerClus ≠ 0 := by
      intro hz
      rw [entriesPerCluster, hz, UInt8.toNat_zero, Nat.mul_zero, Nat.zero_div] at hk
      exact Nat.not_lt_zero k hk
    obtain ⟨hstart, hentry⟩ := entryOffset_eq h hc hk' hlow
    obtain ⟨st, hst, hbase⟩ := iterator_offset info hs
    have hsec := (clusterSector_eq h hc).trans (Nat.mod_eq_of_lt (clusterSector_lt h hf))
    refine ⟨hsec, hstart, (entries_eq_iff h).mpr hsize, st, hst, ?_⟩
    rw [offset, hbase]
    exact hentry

/-- A header with sectors of 4096 bytes and clusters of 64 sectors. -/
def largeHeader : Bytes :=
  List.replicate 11 0 ++ [0, 16, 64, 1, 0, 2, 0, 2, 0, 0, 0, 32, 0]

def large : Drive := ⟨largeHeader, fun _ => Buffer.zeros nameBytes, Buffer.zeros⟩

def largeInfo : FatInfo := ⟨4096, 64, 1, 2, 512, 32, 65, 69, 8192⟩

theorem large_reads : Reads large readFatInfo (some largeInfo) := by
  have hinfo : fatInfo large.image = some largeInfo := by decide
  rw [← hinfo]
  exact readFatInfo_reads (by decide)

theorem exact_iff_large : Exact largeInfo 2 0 ↔ 4096 * 64 < 2 ^ 21 ∧ 69 * 4096 + 32 * 0 < 2 ^ 32 :=
  exact_iff (large_reads ⟨0, 0, []⟩) (by decide) (by decide) (by decide)

theorem large_wraps : ¬ ∀ (drive : Drive) (info : FatInfo) (w w' : World) (c : UInt16) (k : Nat),
    Runs (handled (perform drive)) readFatInfo w (.returned info) w' →
    info.bytsPerSec ≠ 0 → info.secPerClus ≠ 0 → info.fatSize.toNat < 2 ^ 16 →
    2 ≤ c → c ≤ 0xffef → k < entriesPerCluster info → Exact info c k := by
  intro hall
  have he := hall large largeInfo ⟨0, 0, []⟩ _ 0xffef 0 (large_reads _) (by decide) (by decide)
    (by decide) (by decide) (by decide) (by decide)
  exact absurd he.start (by decide)

end

end Ti3.Fat.Geometry
