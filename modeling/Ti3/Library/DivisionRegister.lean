import Mathlib.Algebra.CharP.Two
import Mathlib.Algebra.Polynomial.Div
import Mathlib.FieldTheory.Finite.Basic
import Mathlib.Tactic.LinearCombination

namespace Ti3.Library.DivisionRegister

open Polynomial

variable {w : Nat}

def bit (b : Bool) : ZMod 2 := if b then 1 else 0

@[simp] theorem bit_false : bit false = 0 := rfl

@[simp] theorem bit_true : bit true = 1 := rfl

theorem bit_xor (a b : Bool) : bit (a ^^ b) = bit a + bit b := by
  cases a <;> cases b <;> decide

/-- A bit string as a polynomial over GF(2); the first bit is the highest
coefficient. -/
noncomputable def ofBits (bits : List Bool) : (ZMod 2)[X] :=
  bits.foldl (fun p b => X * p + C (bit b)) 0

/-- A machine word as a polynomial over GF(2). -/
noncomputable def toPoly (r : BitVec w) : (ZMod 2)[X] :=
  ∑ i ∈ Finset.range w, C (bit (r.getLsbD i)) * X ^ i

theorem coeff_toPoly (r : BitVec w) (n : Nat) : (toPoly r).coeff n = bit (r.getLsbD n) := by
  rw [toPoly]
  simp only [finsetSum_coeff, coeff_C_mul, coeff_X_pow, mul_ite, mul_one, mul_zero]
  by_cases hn : n < w
  · simp [hn]
  · simp [hn, BitVec.getLsbD_of_ge r n (by omega)]

theorem toPoly_injective : Function.Injective (toPoly : BitVec w → (ZMod 2)[X]) := by
  intro r s h
  apply BitVec.eq_of_getLsbD_eq
  intro i _
  have hi := congrArg (fun p => p.coeff i) h
  simp only [coeff_toPoly] at hi
  cases hr : r.getLsbD i <;> cases hs : s.getLsbD i <;> simp_all

theorem toPoly_xor (r s : BitVec w) : toPoly (r ^^^ s) = toPoly r + toPoly s := by
  ext n
  simp only [coeff_add, coeff_toPoly, BitVec.getLsbD_xor, bit_xor]

theorem toPoly_zero : toPoly (0#w) = 0 := by
  ext n
  simp [coeff_toPoly]

theorem degree_toPoly_lt (r : BitVec w) : (toPoly r).degree < w := by
  rw [degree_lt_iff_coeff_zero]
  intro n hn
  rw [coeff_toPoly, BitVec.getLsbD_of_ge r n hn, bit_false]

/-- The divisor of a register of width `w` whose feedback word is `g`. -/
noncomputable def generator (g : BitVec w) : (ZMod 2)[X] := X ^ w + toPoly g

theorem generator_monic (g : BitVec w) : (generator g).Monic :=
  monic_X_pow_add (degree_toPoly_lt g)

theorem degree_generator (g : BitVec w) : (generator g).degree = w := by
  rw [generator]
  rw [degree_add_eq_left_of_degree_lt, degree_X_pow]
  rw [degree_X_pow]
  exact degree_toPoly_lt g

/-- Shift one bit into a register and feed the bit shifted out back through `g`. -/
def shift (g r : BitVec w) (b : Bool) : BitVec w :=
  if r.msb then ((r <<< 1) ||| (BitVec.ofBool b).setWidth w) ^^^ g
  else (r <<< 1) ||| (BitVec.ofBool b).setWidth w

theorem getLsbD_shifted (r : BitVec w) (b : Bool) (n : Nat) :
    ((r <<< 1) ||| (BitVec.ofBool b).setWidth w).getLsbD n =
      (decide (n < w) && if n = 0 then b else r.getLsbD (n - 1)) := by
  simp only [BitVec.getLsbD_or, BitVec.getLsbD_shiftLeft, BitVec.getLsbD_setWidth,
    BitVec.getLsbD_ofBool]
  cases n with
  | zero => simp
  | succ n => simp

theorem toPoly_shifted (hw : 0 < w) (r : BitVec w) (b : Bool) :
    X * toPoly r + C (bit b) =
      toPoly ((r <<< 1) ||| (BitVec.ofBool b).setWidth w) + C (bit r.msb) * X ^ w := by
  ext n
  simp only [coeff_add, coeff_toPoly, getLsbD_shifted, coeff_C_mul, coeff_X_pow]
  cases n with
  | zero => simp [hw, Nat.ne_of_lt hw]
  | succ n =>
    rw [coeff_X_mul, coeff_toPoly, coeff_C_succ, BitVec.msb_eq_getLsbD_last]
    by_cases hn : n + 1 < w
    · simp [hn, Nat.ne_of_lt hn]
    · by_cases he : n + 1 = w
      · subst he; simp
      · simp [hn, he, BitVec.getLsbD_of_ge r n (by omega)]

/-- One step of the register is multiplication by `X`, reduced by the divisor. -/
theorem toPoly_shift (hw : 0 < w) (g r : BitVec w) (b : Bool) :
    X * toPoly r + C (bit b) = toPoly (shift g r b) + C (bit r.msb) * generator g := by
  rw [toPoly_shifted hw]
  rw [shift, generator]
  cases r.msb with
  | false => simp
  | true =>
    simp only [↓reduceIte, toPoly_xor, bit_true, C_1, one_mul]
    have hg : toPoly g + toPoly g = 0 := CharTwo.add_self_eq_zero _
    linear_combination -hg

def divide (g : BitVec w) (bits : List Bool) : BitVec w := bits.foldl (shift g) 0

theorem divide_append (g : BitVec w) (u v : List Bool) :
    divide g (u ++ v) = v.foldl (shift g) (divide g u) := List.foldl_append

theorem ofBits_append_singleton (u : List Bool) (b : Bool) :
    ofBits (u ++ [b]) = X * ofBits u + C (bit b) := by
  simp [ofBits]

/-- The register holds the remainder of the bits shifted through it. -/
theorem toPoly_divide (hw : 0 < w) (g : BitVec w) (bits : List Bool) :
    toPoly (divide g bits) = ofBits bits %ₘ generator g := by
  have hd : generator g ∣ ofBits bits - toPoly (divide g bits) := by
    induction bits using List.reverseRecOn with
    | nil => simp [ofBits, divide, toPoly_zero]
    | append_singleton u b ih =>
      obtain ⟨q, hq⟩ := ih
      have hs := toPoly_shift hw g (divide g u) b
      refine ⟨X * q + C (bit (divide g u).msb), ?_⟩
      rw [ofBits_append_singleton, divide_append]
      simp only [List.foldl_cons, List.foldl_nil]
      linear_combination X * hq + hs
  have hr : (toPoly (divide g bits)) %ₘ generator g = toPoly (divide g bits) := by
    rw [modByMonic_eq_self_iff (generator_monic g), degree_generator]
    exact degree_toPoly_lt _
  rw [modByMonic_eq_of_dvd_sub (generator_monic g) hd, hr]

theorem divide_eq_zero_iff (hw : 0 < w) (g : BitVec w) (bits : List Bool) :
    divide g bits = 0 ↔ generator g ∣ ofBits bits := by
  rw [← modByMonic_eq_zero_iff_dvd (generator_monic g), ← toPoly_divide hw]
  refine ⟨fun h => ?_, fun h => ?_⟩
  · rw [h]
    exact toPoly_zero
  · exact toPoly_injective (h.trans toPoly_zero.symm)

end Ti3.Library.DivisionRegister
