import Ti3.Fat.Geometry
import Ti3.Fat.Lookup

namespace Ti3.Fat.Ascent

open Library.CString Library.CMemory Library.Interaction Library.Determinism Library.Cursor
open Library.Rules DriveLs Image Iterator Table Loops Listing Chain PathResolution FileNames
open Lookup Fat.Geometry

/-- The name of a directory in itself. -/
def selfName : FatName :=
  ⟨ascii ".", [], by decide, by decide, by decide, by decide, by decide⟩

/-- The name of the directory above. -/
def parentName : FatName :=
  ⟨ascii "..", [], by decide, by decide, by decide, by decide, by decide⟩

/-- The cluster starts with an entry for the directory itself and one for its parent,
which starts at cluster `p`, or at cluster 0 if it is the root directory. -/
structure Dots (image : Bytes) (info : FatInfo) (c p : UInt16) : Prop where
  number : 2 ≤ c
  self : ∃ d, slotAt image (entryOffset info c 0) = some ⟨selfName.bytes, 0x10, d⟩
  parent : slotAt image (entryOffset info c 1) = some ⟨parentName.bytes, 0x10, p⟩
  low : entryOffset info c 1 + dirEntBytes ≤ 2 ^ 32

variable {drive : Drive} {info : FatInfo} {w w₁ w' : World} {c p : UInt16} {n : FatName}
variable {σ : Type} {env : Environment Call Answer σ} {v v' : σ}

/-- A name without a newline is read and written as it is. -/
theorem rendered_entry {attr : UInt8} {d : UInt16} (hw : n.Writable) (hl : newline ∉ n.bytes)
    (m : Buffer nameBytes) :
    rendered drive (Slot.entry ⟨n.bytes, attr, d⟩ m).name = some n.text := by
  have hname : (Slot.entry ⟨n.bytes, attr, d⟩ m).name.bytes.take 11 = n.bytes :=
    entry_name (length_bytes n) hl m
  have hholds : Holds (Slot.entry ⟨n.bytes, attr, d⟩ m).name n := by
    have hprefix := List.take_prefix 11 (Slot.entry ⟨n.bytes, attr, d⟩ m).name.bytes
    rwa [hname] at hprefix
  obtain ⟨o, ho, hs⟩ := sprintFilename_writes (drive.array (nameBytes + 1)) hholds hw
  rw [rendered, ho, Option.bind_some, hs]

theorem given_dots {k : Nat} {d : UInt16} (h : Calculated info) (hc : 2 ≤ c) (hk : k ≤ 1)
    (hfirst : n.bytes.headD 0 ≠ 0) (hlow : entryOffset info c k + dirEntBytes ≤ 2 ^ 32)
    (hs : slotAt drive.image (entryOffset info c k) = some ⟨n.bytes, 0x10, d⟩) :
    given drive.image (secToOffset info (clusterToSec info c)) k = some ⟨n.bytes, 0x10, d⟩ := by
  have hlow' : entryOffset info c k < 2 ^ 32 := Nat.lt_of_lt_of_le (Nat.lt_add_of_pos_right
    (by decide)) hlow
  have hoffset := (entryOffset_eq h hc (by omega) hlow').2
  have hnr : (UInt16.ofNat k).toUInt32 = UInt32.ofNat k := by
    obtain rfl | rfl := Nat.le_one_iff_eq_zero_or_eq_one.mp hk
    · rfl
    · rfl
  rw [given_eq, slotOffset, ← hnr, hoffset]
  exact ⟨hs, show (0x10 : UInt8) &&& 0x08 = 0 by decide, hfirst,
    fun hend => absurd (show (0x10 : UInt8) = 0 from hend.1) (by decide)⟩

/-- In a directory with its dots the name `..` leads to the parent. -/
theorem find_parent (h : Calculated info) (hs : info.secPerClus ≠ 0) (he : info.rootEntCnt ≠ 0)
    (hcount : 2 ≤ info.dirEntsPerCluster) (hd : Dots drive.image info c p) (w : World) :
    ∃ w', w'.printed = w.printed ∧
      Runs (handled (perform drive)) (findPathSecNum info (clusterToSec info c) (ascii "..")) w
        (.returned (clusterToSec info p)) w' := by
  obtain ⟨d, hself⟩ := hd.self
  let st : DirEntryIteratorState :=
    ⟨false, info.dirEntsPerCluster, c, secToOffset info (clusterToSec info c), -1⟩
  have hcount' : 2 ≤ st.maxEntryCnt.toNat := UInt16.le_iff_toNat_le.mp hcount
  have hst : newDirEntryIterator info (clusterToSec info c) = some (before st 0) :=
    iterator_cluster hd.number hs (clusterToSec_ne_root h he hd.number)
  have hlow := hd.low
  have h₀ := given_dots h hd.number (Nat.zero_le 1) (by decide)
    (Nat.le_trans (by simp [entryOffset]) hlow) hself
  have h₁ := given_dots h hd.number (Nat.le_refl 1) (by decide) hlow hd.parent
  have hfirst : Finds (examine drive info) (before st 0, w.entries) _ :=
    .give (examine_given (Nat.lt_of_lt_of_le Nat.two_pos hcount') h₀)
  have hsecond : Finds (examine drive info) (before st 1, w.entries + 1) _ :=
    .give (examine_given (Nat.lt_of_lt_of_le Nat.one_lt_two hcount') h₁)
  have hself' := @rendered_entry drive selfName 0x10 d (by decide) (by decide)
    (drive.names w.entries)
  have hparent' := @rendered_entry drive parentName 0x10 p (by decide) (by decide)
    (drive.names (w.entries + 1))
  have hdir : isDirectory (Slot.entry ⟨parentName.bytes, 0x10, p⟩
      (drive.names (w.entries + 1))) = true := show decide ((0x10 : UInt8) &&& 0x10 ≠ 0) = true by
    decide
  rw [findPathSecNum, hst]
  refine ⟨(w.after (w.entries + 1)).after (w.entries + 1 + 1), rfl, ?_⟩
  refine loop_next (findStep_passes hfirst (fun _ => ⟨_, hself'⟩) (fun hm => ?_))
    (loop_stop (findStep_found hsecond ⟨hdir, hparent'⟩) runs_done)
  cases Option.some.inj (hself'.symm.trans hm.2)

/-- A string that can stand between two delimiters of a path. -/
def Component (name : Bytes) : Prop := 0 ∉ name ∧ pathDelim ∉ name

instance (name : Bytes) : Decidable (Component name) := inferInstanceAs (Decidable (_ ∧ _))

/-- The way from the root directory down to the one that starts at cluster `c`, by the
names that the search finds. -/
inductive Descends (drive : Drive) (info : FatInfo) (w : World) :
    List Bytes → UInt16 → World → Prop
  | root : Descends drive info w [] 0 w
  | enter {names p w₁ name c w₂} : Descends drive info w names p w₁ → Component name →
      Runs (handled (perform drive)) (findPathSecNum info (clusterToSec info p) name) w₁
        (.returned (clusterToSec info c)) w₂ → Dots drive.image info c p →
      Descends drive info w (names ++ [name]) c w₂

/-- The path with these components, and what comes behind them. -/
def along (names : List Bytes) (s : Bytes) : Bytes :=
  names.foldr (fun name s => name ++ pathDelim :: s) s

def upwards (n : Nat) : Bytes := along (List.replicate n (ascii "..")) []

/-- Wherever the path is in memory, this is how it is listed. -/
def LsRuns (drive : Drive) (info : FatInfo) (sec : UInt32) (path : Bytes) (w : World)
    (o : Outcome Exit Unit) (w' : World) : Prop :=
  ∀ ⦃n : Nat⦄ (memory : Buffer n) (i : Int) (u v : Bytes),
    memory.bytes = u ++ path ++ 0 :: v → i = u.length →
    Runs (handled (perform drive)) (ls info sec memory (.inside i)) w o w'

variable {names : List Bytes} {name s : Bytes} {sec t : UInt32} {o : Outcome Exit Unit}

theorem lsRuns_list (hr : Runs (handled (perform drive)) (list info sec) w o w') :
    LsRuns drive info sec [] w o w' := by
  intro n memory i u v hm hi
  have hstring : memory.string (.inside i) = some [] := string_inside hm hi List.not_mem_nil
  have hstep : lsStep info (sec, memory, .inside i) = (do
      list info sec
      return .inr ()) := by
    simp only [lsStep, hstring, access, Program.pure_eq, Program.done_bind, List.length_nil,
      if_true]
  have hbody {o' : Outcome Exit _} (h : Sequenced (Runs (handled (perform drive))
      (list info sec)) (fun _ => Runs (handled (perform drive)) (.done (.inr ()))) w o' w') :
      Runs (handled (perform drive)) (lsStep info (sec, memory, .inside i)) w o' w' := by
    rw [hstep]
    exact (runs_bind _ _ _ _ _).mpr h
  cases o with
  | cut => exact .cut (.cut (hbody (.cut hr)))
  | halted e => exact loop_halted (hbody (.halted hr))
  | returned u => exact loop_stop (hbody (.next hr runs_done)) runs_done

theorem zero_not_mem_cons (hc : Component name) (hz : 0 ∉ s) : 0 ∉ name ++ pathDelim :: s :=
  List.not_mem_append hc.1 (fun h => (List.mem_cons.mp h).elim (by decide) hz)

/-- One component is entered. -/
theorem lsStep_enters {n : Nat} {memory : Buffer n} {i : Int} {u v : Bytes} (hc : Component name)
    (hz : 0 ∉ s) (hm : memory.bytes = u ++ (name ++ pathDelim :: s) ++ 0 :: v) (hi : i = u.length)
    (hr : Runs (handled (perform drive)) (findPathSecNum info sec name) w (.returned t) w₁)
    (ht : t ≠ noSuchEntry) :
    ∃ (memory' : Buffer n) (j : Int) (u' : Bytes),
      memory'.bytes = u' ++ s ++ 0 :: v ∧ j = u'.length ∧
      Runs (handled (perform drive)) (lsStep info (sec, memory, .inside i)) w
        (.returned (.inl (t, memory', .inside j))) w₁ := by
  obtain ⟨memory', hm', hstep⟩ := lsStep_chops info sec hm hi (zero_not_mem_cons hc hz) hc.2
  refine ⟨memory', i + name.length + 1, u ++ name ++ [0], hm', ?_, ?_⟩
  · simp only [hi, List.length_append, List.length_singleton]
    omega
  · rw [hstep]
    apply runs_next hr
    rw [if_neg ht]
    exact runs_done

theorem lsRuns_enter (hc : Component name) (hz : 0 ∉ s)
    (hr : Runs (handled (perform drive)) (findPathSecNum info sec name) w (.returned t) w₁)
    (ht : t ≠ noSuchEntry) (h : LsRuns drive info t s w₁ o w') :
    LsRuns drive info sec (name ++ pathDelim :: s) w o w' := by
  intro n memory i u v hm hi
  obtain ⟨memory', j, u', hm', hj, hstep⟩ := lsStep_enters hc hz hm hi hr ht
  exact loop_next hstep (h memory' j u' v hm' hj)

theorem lsRuns_missing (hc : Component name) (hz : 0 ∉ s)
    (hr : Runs (handled (perform drive)) (findPathSecNum info sec name) w
      (.returned noSuchEntry) w') :
    LsRuns drive info sec (name ++ pathDelim :: s) w (.halted (notFound name)) w' := by
  intro n memory i u v hm hi
  obtain ⟨memory', hm', hstep⟩ := lsStep_chops info sec hm hi (zero_not_mem_cons hc hz) hc.2
  apply loop_halted
  rw [hstep]
  apply runs_next hr
  rw [if_pos rfl]
  exact runs_halt

theorem upwards_succ (n : Nat) : upwards (n + 1) = ascii ".." ++ pathDelim :: upwards n := rfl

theorem zero_not_mem_along (hall : ∀ c ∈ names, Component c) : 0 ∉ along names [] := by
  induction names with
  | nil => exact List.not_mem_nil
  | cons c cs ih =>
    exact zero_not_mem_cons (hall c List.mem_cons_self)
      (ih (fun d hd => hall d (List.mem_cons_of_mem c hd)))

theorem zero_not_mem_upwards (n : Nat) : 0 ∉ upwards n := by
  apply zero_not_mem_along
  intro c hc
  rw [List.eq_of_mem_replicate hc]
  decide

/-- A cluster of the data area is behind the root directory, so it does not start at
sector 0. -/
theorem clusterToSec_ne_zero (h : Calculated info) (he : info.rootEntCnt ≠ 0)
    (hd : Dots drive.image info c p) : clusterToSec info c ≠ noSuchEntry := by
  intro hz
  have hlow : clusterSector info c < 2 ^ 32 := by
    have hle : clusterSector info c ≤ entryOffset info c 1 := clusterSector_le h
    exact Nat.lt_of_le_of_lt hle (Nat.lt_of_lt_of_le (Nat.lt_add_of_pos_right (by decide)) hd.low)
  have hpos : 0 < clusterSector info c := Nat.lt_of_lt_of_le (rootDirSectors_pos h he)
    (Nat.le_trans (Nat.le_add_right _ _) (Nat.le_add_left _ _))
  have hsec := clusterSector_eq h hd.number
  rw [hz, Nat.mod_eq_of_lt hlow] at hsec
  exact absurd hsec (Nat.ne_of_lt hpos)

section

variable (h : Calculated info) (hs : info.secPerClus ≠ 0) (he : info.rootEntCnt ≠ 0)
include h he

theorem descends_ne_zero (hroot : info.firstRootDirSecNum ≠ noSuchEntry)
    (hd : Descends drive info w names c w₁) : clusterToSec info c ≠ noSuchEntry := by
  cases hd with
  | root => exact hroot
  | enter _ _ _ hdots => exact clusterToSec_ne_zero h he hdots

theorem descends_printed (hd : Descends drive info w names c w₁) : w₁.printed = w.printed := by
  induction hd with
  | root => rfl
  | enter _ _ hr hdots ih =>
    obtain ⟨es, e, st, ⟨st₀, gs, -, hcalls, -⟩, -⟩ :=
      (find_returned hr).resolve_left (clusterToSec_ne_zero h he hdots)
    rw [calls_printed hcalls, ih]

/-- The names lead down. -/
theorem descends_along (hd : Descends drive info w names c w₁) (hz : 0 ∉ s)
    (hl : LsRuns drive info (clusterToSec info c) s w₁ o w') :
    LsRuns drive info info.firstRootDirSecNum (along names s) w o w' := by
  induction hd generalizing s with
  | root => exact hl
  | @enter names p w₁ name c w₂ _ hname hr hdots ih =>
    rw [along, List.foldr_append]
    exact ih (zero_not_mem_cons hname hz)
      (lsRuns_enter hname hz hr (clusterToSec_ne_zero h he hdots) hl)

include hs

/-- As many times `..` lead back to the root directory. -/
theorem descends_upwards (hcount : 2 ≤ info.dirEntsPerCluster)
    (hroot : info.firstRootDirSecNum ≠ noSuchEntry) (hd : Descends drive info w names c w₁)
    (v : World) : ∃ v', v'.printed = v.printed ∧ ∀ o w',
      Runs (handled (perform drive)) (list info info.firstRootDirSecNum) v' o w' →
        LsRuns drive info (clusterToSec info c) (upwards names.length) v o w' := by
  induction hd generalizing v with
  | root => exact ⟨v, rfl, fun o w' => lsRuns_list⟩
  | @enter names p w₁ name c w₂ hd _ _ hdots ih =>
    obtain ⟨v₁, hprinted₁, hr⟩ := find_parent h hs he hcount hdots v
    obtain ⟨v', hprinted, hlist⟩ := ih v₁
    refine ⟨v', hprinted.trans hprinted₁, fun o w' hl => ?_⟩
    rw [List.length_append, List.length_singleton, upwards_succ]
    exact lsRuns_enter (by decide) (zero_not_mem_upwards _) hr
      (descends_ne_zero h he hroot hd) (hlist o w' hl)

end

/-- From every directory `..` leads to the one above. -/
def ParentFound (drive : Drive) (info : FatInfo) : Prop :=
  ∀ (w : World) (c p : UInt16), Dots drive.image info c p → ∃ w',
    Runs (handled (perform drive)) (findPathSecNum info (clusterToSec info c) (ascii "..")) w
      (.returned (clusterToSec info p)) w'

/-- A path down and up again lists the root directory. -/
def RootListed (drive : Drive) (info : FatInfo) : Prop :=
  ∀ (w : World) (names : List Bytes) (c : UInt16) (w₁ : World),
    Descends drive info w names c w₁ → ∃ w₂, w₂.printed = w.printed ∧ ∀ o w',
      Runs (handled (perform drive)) (list info info.firstRootDirSecNum) w₂ o w' →
        Runs (handled (perform drive)) (ls info info.firstRootDirSecNum
          (argument (along names (upwards names.length))) start) w o w'

theorem ascent {v v' : World}
    (hr : Runs (handled (perform drive)) readFatInfo v (.returned info) v')
    (hs : info.secPerClus ≠ 0) (he : info.rootEntCnt ≠ 0) (hcount : 2 ≤ info.dirEntsPerCluster) :
    ParentFound drive info ∧
      (info.firstRootDirSecNum ≠ noSuchEntry → RootListed drive info) := by
  have h := readFatInfo_calculated hr
  constructor
  · intro w c p hd
    obtain ⟨w', -, hr⟩ := find_parent h hs he hcount hd w
    exact ⟨w', hr⟩
  · intro hroot w names c w₁ hd
    obtain ⟨w₂, hprinted, hlist⟩ := descends_upwards h hs he hcount hroot hd w₁
    refine ⟨w₂, hprinted.trans (descends_printed h he hd), fun o w' hl => ?_⟩
    have hls := descends_along h he hd (zero_not_mem_upwards _) (hlist o w' hl)
    exact hls (argument _) 0 [] [] rfl rfl

/-- A header with sectors of 64 bytes and clusters of one sector, behind a sector with
the FAT a root directory of two entries, and a directory in it. -/
def dotted : Drive :=
  ⟨List.replicate 11 0 ++ [64, 0, 1, 1, 0, 1, 2, 0, 0, 0, 0, 1, 0] ++ List.replicate 104 0 ++
    record (ascii "A          ") 0x10 2 0 ++ List.replicate 32 0 ++
    record selfName.bytes 0x10 2 0 ++ record parentName.bytes 0x10 0 0,
    fun _ => Buffer.zeros nameBytes, Buffer.zeros⟩

def dottedInfo : FatInfo := ⟨64, 1, 1, 1, 2, 1, 2, 3, 2⟩

theorem dotted_reads : Reads dotted readFatInfo (some dottedInfo) := by
  have hinfo : fatInfo dotted.image = some dottedInfo := by decide +kernel
  rw [← hinfo]
  exact readFatInfo_reads (by decide +kernel)

theorem ascent_dotted : Dots dotted.image dottedInfo 2 0 ∧ ParentFound dotted dottedInfo ∧
    (dottedInfo.firstRootDirSecNum ≠ noSuchEntry → RootListed dotted dottedInfo) :=
  ⟨⟨by decide, ⟨2, by decide +kernel⟩, by decide +kernel, by decide⟩,
    ascent (dotted_reads ⟨0, 0, []⟩) (by decide) (by decide) (by decide)⟩

/-- An image whose header is also its root directory, with a directory in it. -/
def sectorZero : Drive :=
  ⟨ascii "A          " ++ [16, 0, 4, 0, 0, 0, 1, 0, 0, 0, 0, 1, 0, 0, 0, 2, 0, 0, 0, 0, 0] ++
    record selfName.bytes 0x10 2 0 ++ record parentName.bytes 0x10 0 0,
    fun _ => Buffer.zeros nameBytes, Buffer.zeros⟩

def sectorZeroInfo : FatInfo := ⟨16, 4, 0, 0, 1, 1, 0, 2, 2⟩

theorem sectorZero_reads : Reads sectorZero readFatInfo (some sectorZeroInfo) := by
  have hinfo : fatInfo sectorZero.image = some sectorZeroInfo := by decide +kernel
  rw [← hinfo]
  exact readFatInfo_reads (by decide +kernel)

theorem sectorZero_dots : Dots sectorZero.image sectorZeroInfo 2 0 where
  number := by decide
  self := ⟨2, by decide +kernel⟩
  parent := by decide +kernel
  low := by decide

def sectorZeroSlot : Slot := ⟨ascii "A          ", 0x10, 2⟩

def sectorZeroEntry : FatDirInfo := sectorZeroSlot.entry (Buffer.zeros nameBytes)

def sectorZeroRoot : DirEntryIteratorState := ⟨true, 1, -1, 0, -1⟩

theorem sectorZero_finds (n : Nat) : Finds (examine sectorZero sectorZeroInfo)
    (before sectorZeroRoot 0, n) (.give sectorZeroEntry (before sectorZeroRoot 1, n + 1)) := by
  have hslot : given sectorZero.image 0 0 = some sectorZeroSlot := by decide +kernel
  exact .give (examine_given (by decide) hslot)

theorem sectorZero_rendered : rendered sectorZero sectorZeroEntry.name = some (ascii "A") := by
  decide +kernel

theorem sectorZero_down (w : World) : Descends sectorZero sectorZeroInfo w [ascii "A"] 2
    (w.after (w.entries + 1)) := by
  have hfind : Runs (handled (perform sectorZero)) (findPathSecNum sectorZeroInfo 0 (ascii "A")) w
      (.returned (clusterToSec sectorZeroInfo 2)) (w.after (w.entries + 1)) :=
    loop_stop (findStep_found (sectorZero_finds w.entries)
      ⟨by decide +kernel, sectorZero_rendered⟩) runs_done
  exact .enter .root (by decide) hfind sectorZero_dots

theorem sectorZero_list (w : World) : ∃ w', Runs (handled (perform sectorZero))
    (list sectorZeroInfo 0) w (.returned ()) w' := by
  have hlast : Last sectorZero.image sectorZeroInfo sectorZeroRoot := .inl rfl
  obtain ⟨p, hp⟩ : ∃ p, examine sectorZero sectorZeroInfo
      (before sectorZeroRoot 1, w.entries + 1) = .stop p :=
    (examine_last hlast).resolve_right (fun hb => absurd hb.1 (by decide))
  have hprint := listStep_prints (w := w) (sectorZero_finds w.entries) sectorZero_rendered
  exact ⟨_, loop_next hprint (loop_stop (listStep_stop (.stop hp)) runs_done)⟩

/-- The root directory at sector 0 is taken for a failed search. -/
theorem root_not_entered : ¬ ∀ (drive : Drive) (info : FatInfo) (v v' : World),
    Runs (handled (perform drive)) readFatInfo v (.returned info) v' →
    info.secPerClus ≠ 0 → info.rootEntCnt ≠ 0 → 2 ≤ info.dirEntsPerCluster →
    ParentFound drive info ∧ RootListed drive info := by
  intro hall
  let w : World := ⟨0, 0, []⟩
  obtain ⟨hparent, hlisted⟩ := hall sectorZero sectorZeroInfo w w (sectorZero_reads w) (by decide)
    (by decide) (by decide)
  have hdown := sectorZero_down w
  obtain ⟨w₂, -, hlist⟩ := hlisted w _ _ _ hdown
  obtain ⟨w', hr⟩ := sectorZero_list w₂
  obtain ⟨w₃, hup⟩ := hparent (w.after (w.entries + 1)) 2 0 sectorZero_dots
  have hls : LsRuns sectorZero sectorZeroInfo 0 (along [ascii "A"] (upwards 1)) w
      (.halted (notFound (ascii ".."))) w₃ :=
    descends_along (readFatInfo_calculated (sectorZero_reads w)) (by decide) hdown
      (zero_not_mem_upwards 1) (lsRuns_missing (by decide) List.not_mem_nil hup)
  cases (runs_deterministic _ _ (hlist _ _ hr) (hls (argument _) 0 [] [] rfl rfl) nofun nofun).1

end Ti3.Fat.Ascent
