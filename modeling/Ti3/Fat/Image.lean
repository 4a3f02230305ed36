import Ti3.Library.Determinism
import Ti3.Fat.DriveLs

namespace Ti3.Fat.Image

open Library.CString Library.CMemory Library.Interaction Library.Determinism DriveLs

def newline : UInt8 := 10

/-- The bytes of a line, but no more than `k`. -/
def lineUpTo : Nat → Bytes → Bytes
  | 0, _ | _, [] => []
  | k + 1, b :: s => if b = newline then [b] else b :: lineUpTo k s

/-- The image file, and what names and arrays hold before anything is stored in
them. -/
structure Drive where
  image : Bytes
  names : Nat → Buffer nameBytes
  array : (n : Nat) → Buffer n

/-- The position in the image, how many names have come into being, and the lines
on standard output. -/
structure World where
  pos : Nat
  entries : Nat
  printed : List Bytes

def World.after (w : World) (n : Nat) : World := { w with entries := n }

def World.print (w : World) (lines : List Bytes) : World :=
  { w with printed := w.printed ++ lines }

def perform (drive : Drive) (w : World) : (c : Call) → Answer c × World
  | .fopen _ => (true, { w with pos := 0 })
  | .ftell => (w.pos, w)
  | .fseek offset => if 0 ≤ offset then (0, { w with pos := offset.toNat }) else (-1, w)
  | .fgetc => match drive.image[w.pos]? with
    | some b => (some b, { w with pos := w.pos + 1 })
    | none => (none, w)
  | .fgets size => match lineUpTo (size - 1) (drive.image.drop w.pos) with
    | [] => (none, w)
    | line => (some line, { w with pos := w.pos + line.length })
  | .name => (drive.names w.entries, { w with entries := w.entries + 1 })
  | .array n => (drive.array n, w)
  | .puts string => ((), w.print [string])

def readError : Exit := .status inputErr (ascii "Error reading")

variable {drive : Drive} {w w₁ : World} {α β : Type} {o : Nat}

@[simp] theorem after_entries {n : Nat} : (w.after n).entries = n := rfl

@[simp] theorem after_after {m n : Nat} : (w.after m).after n = w.after n := rfl

@[simp] theorem after_same : w.after w.entries = w := rfl

theorem print_nil : w.print [] = w := by
  simp [World.print]

theorem print_print (ls ms : List Bytes) : (w.print ls).print ms = w.print (ls ++ ms) := by
  simp [World.print]

/-- The reading starts at the offset. -/
theorem readAt_seeks {read : Process (Option α)} {out : Outcome Exit α}
    (h : Runs (handled (perform drive)) (do
      match ← read with
      | none => err inputErr (ascii "Error reading")
      | some res =>
        if (← fseek w.pos) = -1 then err inputErr (ascii "Cannot return to old position in file")
        else return res) { w with pos := o } out w₁) :
    Runs (handled (perform drive)) (readAt o read) w out w₁ := by
  have hseek : perform drive w (.fseek o) = (0, { w with pos := o }) := by
    simp [perform]
  have htell : perform drive w .ftell = ((w.pos : Int), w) := rfl
  simp only [readAt, ftell, fseek, library, ask_bind]
  apply runs_call htell
  rw [if_neg (by omega)]
  apply runs_call hseek
  rw [if_neg (show ¬(0 : Int) = -1 by decide)]
  exact h

theorem readAt_runs {read : Process (Option α)} {a : α}
    (h : Runs (handled (perform drive)) read { w with pos := o } (.returned (some a)) w₁) :
    Runs (handled (perform drive)) (readAt o read) w (.returned a) { w₁ with pos := w.pos } := by
  have hback : perform drive w₁ (.fseek w.pos) = (0, { w₁ with pos := w.pos }) := by
    simp [perform]
  apply readAt_seeks
  apply runs_next h
  simp only [fseek, library, ask_bind]
  apply runs_call hback
  rw [if_neg (show ¬(0 : Int) = -1 by decide)]
  exact runs_done

theorem readAt_halts {read : Process (Option α)}
    (h : Runs (handled (perform drive)) read { w with pos := o } (.returned none) w₁) :
    Runs (handled (perform drive)) (readAt o read) w (.halted readError) w₁ :=
  readAt_seeks (runs_next h runs_halt)

/-- The program reads a value from the image and changes nothing, or it ends
because the value reaches over the end of the image. -/
def Reads (drive : Drive) (p : Process α) : Option α → Prop
  | some a => ∀ w, Runs (handled (perform drive)) p w (.returned a) w
  | none => ∀ w, ∃ w', Runs (handled (perform drive)) p w (.halted readError) w'

theorem reads_pure (a : α) : Reads drive (.done a) (some a) := fun _ => runs_done

theorem reads_bind {p : Process α} {f : α → Process β} {v : Option α} {g : α → Option β}
    (hp : Reads drive p v) (hf : ∀ a, v = some a → Reads drive (f a) (g a)) :
    Reads drive (p >>= f) (v.bind g) := by
  cases v with
  | none =>
    intro w
    obtain ⟨w', hr⟩ := hp w
    exact ⟨w', (runs_bind p f _ _ _).mpr (.halted hr)⟩
  | some a =>
    have hfa := hf a rfl
    rw [Option.bind_some]
    cases hg : g a with
    | none =>
      rw [hg] at hfa
      intro w
      obtain ⟨w', hr⟩ := hfa w
      exact ⟨w', runs_next (hp w) hr⟩
    | some b =>
      rw [hg] at hfa
      exact fun w => runs_next (hp w) (hfa w)

theorem read8_reads (o : Nat) : Reads drive (read8 o) drive.image[o]? := by
  cases hb : drive.image[o]? with
  | none =>
    intro w
    have hget : perform drive { w with pos := o } .fgetc = (none, { w with pos := o }) := by
      simp only [perform, hb]
    exact ⟨_, readAt_halts (runs_call hget runs_done)⟩
  | some b =>
    intro w
    have hget : perform drive { w with pos := o } .fgetc =
        (some b, { w with pos := o + 1 }) := by
      simp only [perform, hb]
    have hr := readAt_runs (runs_call hget runs_done)
    exact hr

/-- The 16-bit number at an offset. -/
def word (image : Bytes) (o : Nat) : Option UInt16 :=
  image[o]?.bind (fun l => image[o + 1]?.bind (fun u =>
    some ((u.toUInt16 <<< 8) + l.toUInt16)))

theorem read16_reads (o : Nat) : Reads drive (read16 o) (word drive.image o) :=
  reads_bind (read8_reads o)
    (fun _ _ => reads_bind (read8_reads (o + 1)) (fun _ _ => reads_pure _))

/-- The number `read32` makes of a place in the image. -/
def doubleWord (image : Bytes) (o : Nat) : Option UInt32 :=
  (word image o).bind (fun l => (word image (o + 1)).bind (fun u =>
    some ((u.toUInt32 <<< 16) + l.toUInt32)))

theorem read32_reads (o : Nat) : Reads drive (read32 o) (doubleWord drive.image o) :=
  reads_bind (read16_reads o)
    (fun _ _ => reads_bind (read16_reads (o + 1)) (fun _ _ => reads_pure _))

def fatSize (image : Bytes) (fatsz16 : UInt16) : Option UInt32 :=
  if fatsz16 ≠ 0 then some fatsz16.toUInt32 else doubleWord image 32

theorem readFatSize_reads (fatsz16 : UInt16) :
    Reads drive (readFatSize fatsz16) (fatSize drive.image fatsz16) := by
  rw [readFatSize, fatSize]
  by_cases hz : fatsz16 ≠ 0
  · rw [if_pos hz, if_pos hz]
    exact reads_pure _
  · rw [if_neg hz, if_neg hz]
    exact read32_reads 32

/-- What the header of an image says about its file system. -/
def fatInfo (image : Bytes) : Option FatInfo := do
  let bytsPerSec ← word image 11
  let secPerClus ← image[13]?
  let rsvdSecCnt ← word image 14
  let numFATs ← image[16]?
  let rootEntCnt ← word image 17
  let fatsz16 ← word image 22
  let fatSize ← fatSize image fatsz16
  let rootDirSectors :=
    (rootEntCnt.toNat * 32 + (bytsPerSec.toNat - 1)) / bytsPerSec.toNat
  let firstRootDirSecNum := rsvdSecCnt.toUInt32 + numFATs.toUInt32 * fatSize
  some {
    bytsPerSec, secPerClus, rsvdSecCnt, numFATs, rootEntCnt, fatSize, firstRootDirSecNum
    firstDataSector := firstRootDirSecNum + UInt32.ofNat rootDirSectors
    dirEntsPerCluster := UInt16.ofNat (bytsPerSec.toNat * secPerClus.toNat / dirEntBytes) }

theorem readFatInfo_reads (h : word drive.image 11 ≠ some 0) :
    Reads drive readFatInfo (fatInfo drive.image) := by
  refine reads_bind (read16_reads 11) (fun bytsPerSec hb => ?_)
  refine reads_bind (read8_reads 13) (fun _ _ => ?_)
  refine reads_bind (read16_reads 14) (fun _ _ => ?_)
  refine reads_bind (read8_reads 16) (fun _ _ => ?_)
  refine reads_bind (read16_reads 17) (fun _ _ => ?_)
  refine reads_bind (read16_reads 22) (fun fatsz16 _ => ?_)
  refine reads_bind (readFatSize_reads fatsz16) (fun _ _ => ?_)
  have hne : bytsPerSec ≠ 0 := by
    rintro rfl
    exact h hb
  rw [if_neg hne]
  exact reads_pure _

/-- The entry of a cluster in the file allocation table. -/
def fatEntry (image : Bytes) (info : FatInfo) (clusterNr : UInt16) : Option UInt16 :=
  word image (info.rsvdSecCnt.toNat * info.bytsPerSec.toNat + 2 * clusterNr.toNat)

/-- A directory entry in the image. -/
structure Slot where
  name : Bytes
  attr : UInt8
  fstClusLO : UInt16
  deriving DecidableEq

def slotAt (image : Bytes) (o : Nat) : Option Slot :=
  image[o + 11]?.bind (fun attr => (word image (o + 26)).bind (fun fstClusLO =>
    some ⟨(image.drop o).take 11, attr, fstClusLO⟩))

def Slot.first (s : Slot) : UInt8 := s.name.headD 0

/-- Attributes and a start cluster that pass for the end of a directory. -/
def Slot.Sentinel (s : Slot) : Prop :=
  s.attr = noMoreEntriesAttr ∧ s.fstClusLO = noMoreEntriesFcl

instance (s : Slot) : Decidable s.Sentinel := inferInstanceAs (Decidable (_ ∧ _))

/-- What the program makes of a slot, given what the name held before. -/
def Slot.entry (s : Slot) (n : Buffer nameBytes) : FatDirInfo :=
  ⟨n.fill (lineUpTo 11 s.name ++ [0]), s.attr, s.fstClusLO⟩

theorem slotAt_eq {image : Bytes} {s : Slot} : slotAt image o = some s ↔
    image[o + 11]? = some s.attr ∧ word image (o + 26) = some s.fstClusLO ∧
      s.name = (image.drop o).take 11 := by
  rw [slotAt]
  cases image[o + 11]? with
  | none => simp
  | some attr =>
    cases word image (o + 26) with
    | none => simp
    | some c =>
      cases s
      simp only [Option.bind_some, Option.some.injEq, Slot.mk.injEq]
      exact ⟨fun ⟨h₁, h₂, h₃⟩ => ⟨h₂, h₃, h₁.symm⟩, fun ⟨h₁, h₂, h₃⟩ => ⟨h₃.symm, h₁, h₂⟩⟩

theorem slotAt_eq_none {image : Bytes} {attr : UInt8} (ha : image[o + 11]? = some attr) :
    slotAt image o = none ↔ word image (o + 26) = none := by
  rw [slotAt, ha]
  cases word image (o + 26) <;> simp

theorem lineUpTo_take (k : Nat) (s : Bytes) : lineUpTo k (s.take k) = lineUpTo k s := by
  induction k generalizing s with
  | zero => simp [lineUpTo]
  | succ k ih =>
    cases s with
    | nil => rfl
    | cons b s => simp [lineUpTo, ih]

theorem lineUpTo_cons (k : Nat) (b : UInt8) (s : Bytes) :
    ∃ t, lineUpTo (k + 1) (b :: s) = b :: t := by
  rw [lineUpTo]
  split
  · exact ⟨[], rfl⟩
  · exact ⟨_, rfl⟩

/-- An entry whose attributes are there has a name. -/
theorem name_cons {image : Bytes} (ha : o + 11 < image.length) :
    ∃ b s, image[o]? = some b ∧ (image.drop o).take 11 = b :: s := by
  have ho : o < image.length := by omega
  refine ⟨image[o], (image.drop (o + 1)).take 10, List.getElem?_eq_getElem ho, ?_⟩
  rw [List.drop_eq_getElem_cons ho, List.take_succ_cons]

theorem slot_name {image : Bytes} {s : Slot} (hs : slotAt image o = some s) : s.name ≠ [] := by
  obtain ⟨ha, -, hname⟩ := slotAt_eq.mp hs
  obtain ⟨b, t, -, ht⟩ := name_cons (List.getElem?_eq_some_iff.mp ha).1
  rw [hname, ht]
  exact List.cons_ne_nil b t

theorem slot_first {image : Bytes} {s : Slot} (hs : slotAt image o = some s) :
    image[o]? = some s.first := by
  obtain ⟨ha, -, hname⟩ := slotAt_eq.mp hs
  obtain ⟨b, t, hb, ht⟩ := name_cons (List.getElem?_eq_some_iff.mp ha).1
  rw [hb, Slot.first, hname, ht]
  rfl

theorem fgetsName_runs (ha : o + 11 < drive.image.length) : ∃ p,
    Runs (handled (perform drive)) (do fgetsName (← DriveLs.name)) { w with pos := o }
      (.returned (some ((drive.names w.entries).fill
        (lineUpTo 11 ((drive.image.drop o).take 11) ++ [0]))))
      { w.after (w.entries + 1) with pos := p } := by
  obtain ⟨b, s, -, hs⟩ := name_cons ha
  obtain ⟨t, ht⟩ := lineUpTo_cons 10 b s
  have hline : lineUpTo 11 (drive.image.drop o) = b :: t := by
    rw [← lineUpTo_take, hs, ht]
  have hgets : perform drive { w.after (w.entries + 1) with pos := o } (.fgets nameBytes) =
      (some (b :: t), { w.after (w.entries + 1) with pos := o + (b :: t).length }) := by
    have hsize : nameBytes - 1 = 11 := rfl
    simp only [perform, hsize, hline]
  rw [hs, ht]
  exact ⟨_, runs_call rfl (runs_call hgets runs_done)⟩

theorem readDirEntry_runs {s : Slot} (hs : slotAt drive.image o = some s) :
    Runs (handled (perform drive)) (readDirEntry o) w
      (.returned (s.entry (drive.names w.entries))) (w.after (w.entries + 1)) := by
  obtain ⟨ha, hc, hname⟩ := slotAt_eq.mp hs
  obtain ⟨p, hr⟩ := fgetsName_runs (w := w) (List.getElem?_eq_some_iff.mp ha).1
  have hattr : Reads drive (read8 ((o : Int) + 11)) (some s.attr) := ha ▸ read8_reads (o + 11)
  have hclus : Reads drive (read16 ((o : Int) + 26)) (some s.fstClusLO) :=
    hc ▸ read16_reads (o + 26)
  rw [← hname] at hr
  exact runs_next (readAt_runs hr) (runs_next (hattr _) (runs_next (hclus _) runs_done))

theorem readDirEntry_halts {attr : UInt8} (ha : drive.image[o + 11]? = some attr)
    (hs : slotAt drive.image o = none) :
    ∃ w', Runs (handled (perform drive)) (readDirEntry o) w (.halted readError) w' := by
  obtain ⟨p, hr⟩ := fgetsName_runs (w := w) (List.getElem?_eq_some_iff.mp ha).1
  have hattr : Reads drive (read8 ((o : Int) + 11)) (some attr) := ha ▸ read8_reads (o + 11)
  have hclus : Reads drive (read16 ((o : Int) + 26)) none :=
    (slotAt_eq_none ha).mp hs ▸ read16_reads (o + 26)
  obtain ⟨w', hhalt⟩ := hclus (w.after (w.entries + 1))
  refine ⟨w', runs_next (readAt_runs hr) (runs_next (hattr _) ?_)⟩
  exact (runs_bind _ _ _ _ _).mpr (.halted hhalt)

/-- No product or sum on the way to an entry of the table wraps. -/
theorem fatOffset_toNat {info : FatInfo} {c : UInt16} (hb : info.bytsPerSec ≠ 0) :
    (secToOffset info (info.rsvdSecCnt.toUInt32 + c.toUInt32 * 2 / info.bytsPerSec.toUInt32) +
      (c.toUInt32 * 2 % info.bytsPerSec.toUInt32).toUInt16.toUInt32).toNat =
    info.rsvdSecCnt.toNat * info.bytsPerSec.toNat + 2 * c.toNat := by
  have hr := info.rsvdSecCnt.toNat_lt
  have hB := info.bytsPerSec.toNat_lt
  have hc := c.toNat_lt
  have hpos : 0 < info.bytsPerSec.toNat := by
    rw [Nat.pos_iff_ne_zero]
    exact fun h => hb (UInt16.toNat_inj.mp h)
  have htwo : UInt32.toNat 2 = 2 := rfl
  simp only [secToOffset, UInt32.toNat_add, UInt32.toNat_mul, UInt32.toNat_div, UInt32.toNat_mod,
    UInt16.toNat_toUInt32, UInt32.toNat_toUInt16, htwo]
  generalize info.rsvdSecCnt.toNat = r at *
  generalize info.bytsPerSec.toNat = B at *
  have hk : c.toNat * 2 % 2 ^ 32 = c.toNat * 2 := Nat.mod_eq_of_lt (by omega)
  rw [hk]
  have hq : c.toNat * 2 / B ≤ c.toNat * 2 := Nat.div_le_self _ _
  have hm : c.toNat * 2 % B < B := Nat.mod_lt _ hpos
  have hrB : r * B ≤ (2 ^ 16 - 1) * (2 ^ 16 - 1) := Nat.mul_le_mul (by omega) (by omega)
  have hsum : (r + c.toNat * 2 / B) * B + c.toNat * 2 % B = r * B + c.toNat * 2 := by
    rw [Nat.add_mul, Nat.add_assoc, Nat.mul_comm (c.toNat * 2 / B), Nat.div_add_mod]
  have hsec : r + c.toNat * 2 / B < 2 ^ 32 := by omega
  have hent : c.toNat * 2 % B < 2 ^ 16 := by omega
  have hoff : (r + c.toNat * 2 / B) * B < 2 ^ 32 := by omega
  rw [Nat.mod_eq_of_lt hsec, Nat.mod_eq_of_lt hent, Nat.mod_eq_of_lt hoff, hsum,
    Nat.mod_eq_of_lt (by omega), Nat.mul_comm 2]

theorem getNextClusterNr_reads (drive : Drive) {info : FatInfo} (c : UInt16)
    (hb : info.bytsPerSec ≠ 0) :
    Reads drive (getNextClusterNr info c) (fatEntry drive.image info c) := by
  rw [getNextClusterNr, if_neg hb, fatEntry, ← fatOffset_toNat hb]
  exact read16_reads _

/-- A header with sectors of 32 bytes, clusters of one sector, a FAT of one sector
behind the first two, and a root directory of two entries. -/
def boot : Bytes :=
  List.replicate 11 0 ++ [32, 0, 1, 2, 0, 1, 2, 0, 0, 0, 0, 1, 0] ++ List.replicate 40 0

def smallInfo : FatInfo := ⟨32, 1, 2, 1, 2, 1, 3, 5, 1⟩

/-- A directory entry of 32 bytes. -/
def record (name : Bytes) (attr low high : UInt8) : Bytes :=
  name ++ attr :: List.replicate 14 0 ++ low :: high :: List.replicate 4 0

def small (fat : Bytes) (records : List Bytes) : Drive :=
  ⟨boot ++ fat ++ records.flatten, fun _ => Buffer.zeros nameBytes, Buffer.zeros⟩

theorem small_reads (fat : Bytes) (records : List Bytes) :
    Reads (small fat records) readFatInfo (some smallInfo) := by
  have hboot : (small fat records).image = boot ++ (fat ++ records.flatten) :=
    List.append_assoc ..
  have hinfo : fatInfo (small fat records).image = some smallInfo := by
    rw [hboot]
    rfl
  rw [← hinfo]
  have hword : word (boot ++ (fat ++ records.flatten)) 11 = some 32 := rfl
  apply readFatInfo_reads
  rw [hboot, hword]
  decide

end Ti3.Fat.Image
