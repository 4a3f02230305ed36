import Mathlib.Data.List.Basic

namespace Ti3.Library.CString

abbrev Bytes := List UInt8

/-- The bytes of a string literal, its terminating zero left out. -/
def ascii (s : String) : Bytes := s.toList.map (fun c => UInt8.ofNat c.toNat)

/-- The value of a plain `char`, which is signed. -/
def plainChar (b : UInt8) : Int := b.toBitVec.toInt

theorem plainChar_of_le {b : UInt8} (h : b ≤ 127) : plainChar b = b.toNat := by
  apply BitVec.toInt_eq_toNat_of_lt
  have hn : b.toNat ≤ 127 := UInt8.le_iff_toNat_le.mp h
  change 2 * b.toNat < 2 ^ 8
  omega

theorem plainChar_eq_zero {b : UInt8} : plainChar b = 0 ↔ b = 0 := by
  rw [plainChar, ← UInt8.toBitVec_inj, ← BitVec.toInt_inj]
  exact Iff.rfl

theorem plainChar_lt (b : UInt8) : plainChar b < 128 := by
  have h : b.toBitVec.toInt < 2 ^ (8 - 1) := BitVec.toInt_lt
  exact h

theorem plainChar_neg {b : UInt8} (h : 128 ≤ b) : plainChar b < 0 := by
  apply BitVec.toInt_neg_iff.mpr
  have hn : 128 ≤ b.toNat := UInt8.le_iff_toNat_le.mp h
  change 2 ^ 8 ≤ 2 * b.toNat
  omega

/-- The last position of a byte. -/
def lastIndex (c : UInt8) : Bytes → Option Nat
  | [] => none
  | b :: s => match lastIndex c s with
    | some i => some (i + 1)
    | none => if b = c then some 0 else none

theorem lastIndex_eq_none {c : UInt8} {s : Bytes} (h : c ∉ s) : lastIndex c s = none := by
  induction s with
  | nil => rfl
  | cons b s ih =>
    obtain ⟨hb, hs⟩ := not_or.mp (fun h' => h (List.mem_cons.mpr h'))
    simp [lastIndex, ih hs, Ne.symm hb]

theorem lastIndex_isSome {c : UInt8} {s : Bytes} (h : c ∈ s) : (lastIndex c s).isSome := by
  induction s with
  | nil => cases h
  | cons b s ih =>
    by_cases hs : c ∈ s
    · obtain ⟨i, hi⟩ := Option.isSome_iff_exists.mp (ih hs)
      simp [lastIndex, hi]
    · have hb : b = c := ((List.mem_cons.mp h).resolve_right hs).symm
      simp [lastIndex, lastIndex_eq_none hs, hb]

theorem lastIndex_append {c : UInt8} (u v : Bytes) (h : c ∉ v) :
    lastIndex c (u ++ c :: v) = some u.length := by
  induction u with
  | nil => simp [lastIndex, lastIndex_eq_none h]
  | cons b u ih => simp [lastIndex, ih]

/-- What stands before and behind the first occurrence of a byte. -/
def cut (c : UInt8) : Bytes → Option (Bytes × Bytes)
  | [] => none
  | b :: s => if b = c then some ([], s) else (cut c s).map (fun p => (b :: p.1, p.2))

theorem cut_eq_none {c : UInt8} {s : Bytes} : cut c s = none ↔ c ∉ s := by
  induction s with
  | nil => simp [cut]
  | cons b s ih =>
    by_cases hb : b = c
    · simp [cut, hb]
    · simp [cut, hb, Ne.symm hb, ih]

theorem cut_append {c : UInt8} {u v : Bytes} (hu : c ∉ u) : cut c (u ++ c :: v) = some (u, v) := by
  induction u with
  | nil => simp [cut]
  | cons b u ih =>
    obtain ⟨hb, hu⟩ := not_or.mp (fun h => hu (List.mem_cons.mpr h))
    simp [cut, Ne.symm hb, ih hu]

theorem cut_eq_some {c : UInt8} {s u v : Bytes} :
    cut c s = some (u, v) ↔ s = u ++ c :: v ∧ c ∉ u := by
  constructor
  · intro h
    obtain ⟨u', v', rfl, hu⟩ := List.eq_append_cons_of_mem
      (Decidable.not_not.mp (fun hs => by rw [cut_eq_none.mpr hs] at h; cases h))
    rw [cut_append hu] at h
    cases h
    exact ⟨rfl, hu⟩
  · rintro ⟨rfl, hu⟩
    exact cut_append hu

end Ti3.Library.CString
