import Mathlib.GroupTheory.OrderOfElement
import Ti3.Library.CyclicCode

namespace Ti3.Library.RegisterPower

open Polynomial DivisionRegister CyclicCode

variable {w : Nat}

/-- The residue a register stands for. -/
noncomputable def residue (g r : BitVec w) : AdjoinRoot (generator g) :=
  AdjoinRoot.mk (generator g) (toPoly r)

theorem residue_injective (g : BitVec w) : Function.Injective (residue g) := by
  intro r s h
  have hd := AdjoinRoot.mk_eq_mk.mp h
  rw [← toPoly_injective.eq_iff]
  have hr : (toPoly r - toPoly s).degree < (generator g).degree := by
    rw [degree_generator]
    exact (degree_sub_le _ _).trans_lt (max_lt (degree_toPoly_lt r) (degree_toPoly_lt s))
  by_contra hne
  exact (generator_monic g).not_dvd_of_degree_lt (sub_ne_zero.mpr hne) hr hd

/-- Multiply two residues by shifting the second through the first. -/
def mulReg (g a b : BitVec w) : BitVec w :=
  (wordBits b).foldl (fun acc bit => if bit then shift g acc false ^^^ a else shift g acc false) 0

theorem residue_xor (g r s : BitVec w) : residue g (r ^^^ s) = residue g r + residue g s := by
  simp only [residue, toPoly_xor, map_add]

theorem residue_shift (hw : 0 < w) (g r : BitVec w) :
    residue g (shift g r false) = AdjoinRoot.root (generator g) * residue g r := by
  have h := congrArg (AdjoinRoot.mk (generator g)) (toPoly_shift hw g r false)
  simp only [bit_false, C_0, add_zero, map_mul, map_add, AdjoinRoot.mk_X, AdjoinRoot.mk_self,
    mul_zero] at h
  exact h.symm

theorem residue_mulReg (hw : 0 < w) (g a b : BitVec w) :
    residue g (mulReg g a b) = residue g a * residue g b := by
  have h : ∀ bits : List Bool,
      residue g (bits.foldl (fun acc bit => if bit then shift g acc false ^^^ a
        else shift g acc false) 0) = residue g a * AdjoinRoot.mk (generator g) (ofBits bits) := by
    intro bits
    induction bits using List.reverseRecOn with
    | nil => simp [residue, toPoly_zero, ofBits]
    | append_singleton u b ih =>
      rw [ofBits_append_singleton, List.foldl_append]
      simp only [List.foldl_cons, List.foldl_nil, map_add, map_mul, AdjoinRoot.mk_X]
      cases b with
      | false =>
        simp only [Bool.false_eq_true, ↓reduceIte, residue_shift hw, ih, bit_false, map_zero]
        ring
      | true =>
        simp only [↓reduceIte, residue_xor, residue_shift hw, ih, bit_true, map_one]
        ring
  rw [mulReg, h, ofBits_wordBits]
  rfl

/-- A power with its exponent in binary. -/
def powReg (g a : BitVec w) (bits : List Bool) : BitVec w :=
  bits.foldl (fun acc bit => if bit then mulReg g (mulReg g acc acc) a else mulReg g acc acc) 1

def exponent (bits : List Bool) : Nat := bits.foldl (fun n bit => 2 * n + bit.toNat) 0

theorem residue_one (hw : 0 < w) (g : BitVec w) : residue g (1#w) = 1 := by
  have h : toPoly (1#w) = 1 := by
    ext n
    rw [coeff_toPoly, coeff_one, BitVec.getLsbD_one]
    by_cases hn : n = 0 <;> simp [hn, hw]
  rw [residue, h, map_one]

theorem residue_powReg (hw : 0 < w) (g a : BitVec w) (bits : List Bool) :
    residue g (powReg g a bits) = residue g a ^ exponent bits := by
  rw [powReg, exponent]
  induction bits using List.reverseRecOn with
  | nil => simpa using residue_one hw g
  | append_singleton u b ih =>
    simp only [List.foldl_append, List.foldl_cons, List.foldl_nil]
    cases b with
    | false =>
      simp only [Bool.false_eq_true, ↓reduceIte, residue_mulReg hw, ih, Bool.toNat_false, add_zero]
      ring
    | true =>
      simp only [↓reduceIte, residue_mulReg hw, ih, Bool.toNat_true]
      ring

theorem powReg_eq_one_iff (hw : 0 < w) (g a : BitVec w) (bits : List Bool) :
    powReg g a bits = 1#w ↔ residue g a ^ exponent bits = 1 := by
  rw [← residue_powReg hw, ← residue_one hw g, (residue_injective g).eq_iff]

end Ti3.Library.RegisterPower
