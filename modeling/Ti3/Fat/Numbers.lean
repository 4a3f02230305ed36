import Ti3.Library.LittleEndian
import Ti3.Fat.Image

namespace Ti3.Fat.Numbers

open Library.CString Library.CMemory Library.Interaction Library.Determinism
open Library.LittleEndian DriveLs Image

/-- The bytes of an image from an offset on, `n` of them. -/
def slice (image : Bytes) (o n : Nat) : Bytes := (image.drop o).take n

variable {drive : Drive} {image : Bytes} {o : Nat}

theorem slice_succ {n : Nat} (h : o < image.length) :
    slice image o (n + 1) = image[o] :: slice image (o + 1) n := by
  rw [slice, List.drop_eq_getElem_cons h, List.take_succ_cons, slice]

theorem slice_length {n : Nat} (h : o + n ≤ image.length) : (slice image o n).length = n := by
  rw [slice, List.length_take, List.length_drop]
  omega

theorem value_slice_lt {n : Nat} (h : o + n ≤ image.length) :
    value (slice image o n) < 256 ^ n := by
  have hv := value_lt (slice image o n)
  rwa [slice_length h] at hv

theorem slice_two (h : o + 2 ≤ image.length) :
    slice image o 2 = [image[o], image[o + 1]] := by
  rw [slice_succ (by omega), slice_succ (by omega)]
  rfl

theorem slice_four (h : o + 4 ≤ image.length) :
    slice image o 4 = [image[o], image[o + 1], image[o + 2], image[o + 3]] := by
  rw [slice_succ (by omega), slice_succ (by omega)]
  exact congrArg (fun s => image[o] :: image[o + 1] :: s) (slice_two (by omega))

theorem combine16 (l u : UInt8) :
    (u.toUInt16 <<< 8 + l.toUInt16).toNat = l.toNat + 256 * u.toNat := by
  have hl := l.toNat_lt
  have hu := u.toNat_lt
  have hs : (u.toUInt16 <<< 8).toNat = u.toNat * 256 % 65536 := by
    simp [Nat.shiftLeft_eq]
  rw [UInt16.toNat_add, hs, UInt8.toNat_toUInt16]
  omega

theorem combine32 (l u : UInt16) :
    (u.toUInt32 <<< 16 + l.toUInt32).toNat = l.toNat + 65536 * u.toNat := by
  have hl := l.toNat_lt
  have hu := u.toNat_lt
  have hs : (u.toUInt32 <<< 16).toNat = u.toNat * 65536 % 4294967296 := by
    simp [Nat.shiftLeft_eq]
  rw [UInt32.toNat_add, hs, UInt16.toNat_toUInt32]
  omega

/-- A 16-bit number is put together from the two bytes at its offset. -/
theorem word_value (h : o + 2 ≤ image.length) :
    ∃ v, word image o = some v ∧ v.toNat = value (slice image o 2) := by
  have hl : image[o]? = some image[o] := List.getElem?_eq_getElem (by omega)
  have hu : image[o + 1]? = some image[o + 1] := List.getElem?_eq_getElem (by omega)
  refine ⟨_, by rw [word, hl, hu]; rfl, ?_⟩
  rw [combine16, slice_two h]
  simp

/-- The upper half of a 32-bit number is taken one byte behind the lower half. -/
theorem doubleWord_value (h : o + 4 ≤ image.length) :
    ∃ v, doubleWord image o = some v ∧
      v.toNat = value (slice image o 2) + 65536 * value (slice image (o + 1) 2) := by
  obtain ⟨l, hl, hlv⟩ := word_value (show o + 2 ≤ image.length by omega)
  obtain ⟨u, hu, huv⟩ := word_value (show o + 1 + 2 ≤ image.length by omega)
  refine ⟨_, by rw [doubleWord, hl, hu]; rfl, ?_⟩
  rw [combine32, hlv, huv]

theorem reads_unique {α : Type} {p : Process α} {a b : α} (ha : Reads drive p (some a))
    (hb : Reads drive p (some b)) : a = b := by
  let w : World := ⟨0, 0, []⟩
  obtain ⟨h, _⟩ := runs_deterministic _ p (ha w) (hb w) nofun nofun
  exact Outcome.returned.inj h

theorem read16_value (h : o + 2 ≤ drive.image.length) :
    Reads drive (read16 o) (some (UInt16.ofNat (value (slice drive.image o 2)))) := by
  obtain ⟨v, hv, hn⟩ := word_value h
  rw [← hn, UInt16.ofNat_toNat, ← hv]
  exact read16_reads o

/-- The second, the third and the fourth byte are the same. -/
def Repeated (image : Bytes) (o : Nat) : Prop :=
  image[o + 1]? = image[o + 2]? ∧ image[o + 2]? = image[o + 3]?

/-- The number that is built is the one that stands there only if nothing is lost
by the shift. -/
theorem doubleWord_eq_iff (h : o + 4 ≤ image.length) :
    doubleWord image o = some (UInt32.ofNat (value (slice image o 4))) ↔ Repeated image o := by
  obtain ⟨v, hv, hn⟩ := doubleWord_value h
  have hlt := value_slice_lt h
  have h₁ := image[o + 1].toNat_lt
  have h₂ := image[o + 2].toNat_lt
  have h₃ := image[o + 3].toNat_lt
  have hbytes : Repeated image o ↔
      image[o + 1].toNat = image[o + 2].toNat ∧ image[o + 2].toNat = image[o + 3].toNat := by
    rw [Repeated, List.getElem?_eq_getElem (show o + 1 < image.length by omega),
      List.getElem?_eq_getElem (show o + 2 < image.length by omega),
      List.getElem?_eq_getElem (show o + 3 < image.length by omega)]
    simp only [Option.some.injEq, UInt8.toNat_inj]
  have hu : slice image (o + 1) 2 = [image[o + 1], image[o + 2]] := slice_two (by omega)
  rw [slice_two (by omega), hu] at hn
  rw [hv, hbytes, Option.some.injEq, ← UInt32.toNat_inj, UInt32.toNat_ofNat_of_lt' hlt, hn,
    slice_four h]
  simp only [value_cons, value_nil]
  omega

theorem read32_value_iff (h : o + 4 ≤ drive.image.length) :
    Reads drive (read32 o) (some (UInt32.ofNat (value (slice drive.image o 4)))) ↔
      Repeated drive.image o := by
  obtain ⟨v, hv, -⟩ := doubleWord_value h
  have hr : Reads drive (read32 o) (doubleWord drive.image o) := read32_reads o
  rw [← doubleWord_eq_iff h, hv]
  rw [hv] at hr
  constructor
  · intro hw
    exact congrArg some (reads_unique hr hw)
  · intro he
    rwa [← he]

/-- The 32-bit size of a FAT is read when the 16-bit one is zero. -/
theorem readFatSize_value_iff (h : 32 + 4 ≤ drive.image.length) :
    Reads drive (readFatSize 0) (some (UInt32.ofNat (value (slice drive.image 32 4)))) ↔
      Repeated drive.image 32 := by
  rw [readFatSize, if_neg (not_not.mpr rfl)]
  exact read32_value_iff h

/-- What is read at an offset is the number that stands there, and the position
in the file is the same again. -/
structure LittleEndian (drive : Drive) (o : Nat) : Prop where
  half : o + 2 ≤ drive.image.length →
    Reads drive (read16 o) (some (UInt16.ofNat (value (slice drive.image o 2))))
  whole : o + 4 ≤ drive.image.length →
    Reads drive (read32 o) (some (UInt32.ofNat (value (slice drive.image o 4))))

/-- Reading undoes the encoding, and the position in the file is the same again. -/
structure Undoes (drive : Drive) (o : Nat) : Prop where
  half (v : UInt16) : encode 2 v.toNat <+: drive.image.drop o → Reads drive (read16 o) (some v)
  whole (v : UInt32) : encode 4 v.toNat <+: drive.image.drop o → Reads drive (read32 o) (some v)

theorem encode_slice {n : Nat} (h : o + n ≤ image.length) :
    encode n (value (slice image o n)) <+: image.drop o := by
  have he := encode_value (slice image o n)
  rw [slice_length h] at he
  rw [he]
  exact List.take_prefix n _

theorem slice_encode {n v : Nat} (hv : v < 256 ^ (n + 1))
    (h : encode (n + 1) v <+: image.drop o) :
    o + (n + 1) ≤ image.length ∧ value (slice image o (n + 1)) = v := by
  have hlen := h.length_le
  rw [length_encode, List.length_drop] at hlen
  have hs : slice image o (n + 1) = encode (n + 1) v := by
    rw [List.prefix_iff_eq_take.mp h, length_encode, slice]
  refine ⟨by omega, ?_⟩
  rw [hs, value_encode, Nat.mod_eq_of_lt hv]

theorem undoes_iff : Undoes drive o ↔ LittleEndian drive o := by
  constructor
  · intro hu
    constructor
    · intro h
      apply hu.half
      rw [UInt16.toNat_ofNat_of_lt' (value_slice_lt h)]
      exact encode_slice h
    · intro h
      apply hu.whole
      rw [UInt32.toNat_ofNat_of_lt' (value_slice_lt h)]
      exact encode_slice h
  · intro hl
    constructor
    · intro v hv
      obtain ⟨h, hval⟩ := slice_encode v.toNat_lt hv
      have hr := hl.half h
      rwa [hval, UInt16.ofNat_toNat] at hr
    · intro v hv
      obtain ⟨h, hval⟩ := slice_encode v.toNat_lt hv
      have hr := hl.whole h
      rwa [hval, UInt32.ofNat_toNat] at hr

/-- For the 16-bit numbers there is no condition. -/
theorem littleEndian_iff (drive : Drive) (o : Nat) :
    (LittleEndian drive o ↔ (o + 4 ≤ drive.image.length → Repeated drive.image o)) ∧
      (Undoes drive o ↔ (o + 4 ≤ drive.image.length → Repeated drive.image o)) := by
  have hl : LittleEndian drive o ↔ (o + 4 ≤ drive.image.length → Repeated drive.image o) := by
    constructor
    · intro hl h
      exact (read32_value_iff h).mp (hl.whole h)
    · intro hr
      exact ⟨read16_value, fun h => (read32_value_iff h).mpr (hr h)⟩
  exact ⟨hl, undoes_iff.trans hl⟩

/-- The size of a FAT of 256 sectors, behind a 16-bit size of zero. -/
def wideFat : Drive where
  image := List.replicate 32 0 ++ [0, 1, 0, 0]
  names := fun _ => Buffer.zeros nameBytes
  array := Buffer.zeros

theorem wideFat_misread : encode 4 256 <+: wideFat.image.drop 32 ∧
    Reads wideFat (read32 32) (some 65792) ∧ ¬ LittleEndian wideFat 32 ∧ ¬ Undoes wideFat 32 := by
  have hr : Reads wideFat (read32 32) (some 65792) := read32_reads 32
  have hl : ¬ LittleEndian wideFat 32 := by
    intro h
    exact absurd (reads_unique hr (h.whole (by decide))) (by decide)
  exact ⟨by decide, hr, hl, fun h => hl (undoes_iff.mp h)⟩

end Ti3.Fat.Numbers
