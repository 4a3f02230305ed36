import Mathlib.RingTheory.AdjoinRoot
import Ti3.Library.DivisionRegister

namespace Ti3.Library.CyclicCode

open Polynomial DivisionRegister

variable {w : Nat}

theorem ofBits_append (u v : List Bool) : ofBits (u ++ v) = X ^ v.length * ofBits u + ofBits v := by
  induction v using List.reverseRecOn with
  | nil => simp [ofBits]
  | append_singleton v b ih =>
    rw [← List.append_assoc, ofBits_append_singleton, ofBits_append_singleton, ih]
    simp only [List.length_append, List.length_singleton, pow_succ]
    ring

theorem ofBits_zipWith_xor (u v : List Bool) (h : u.length = v.length) :
    ofBits (List.zipWith xor u v) = ofBits u + ofBits v := by
  induction u using List.reverseRecOn generalizing v with
  | nil =>
    have hv : v = [] := List.length_eq_zero_iff.mp h.symm
    simp [hv, ofBits]
  | append_singleton u a ih =>
    obtain rfl | ⟨v, b, rfl⟩ := List.eq_nil_or_concat v
    · simp at h
    · have hl : u.length = v.length := by simpa using h
      rw [List.concat_eq_append, List.zipWith_append hl]
      simp only [List.zipWith_cons_cons, List.zipWith_nil_right, ofBits_append_singleton,
        ih v hl, bit_xor, C_add]
      ring

/-- The bits of a word, the most significant first. -/
def wordBits (r : BitVec w) : List Bool := (List.range w).map r.getMsbD

/-- The polynomial of the bits flipped in a string of `n` bits. -/
noncomputable def errorPoly (n : Nat) (S : Finset Nat) : (ZMod 2)[X] := ∑ i ∈ S, X ^ (n - 1 - i)

theorem ofBits_map_range (n : Nat) (e : Nat → Bool) :
    ofBits ((List.range n).map e) = ∑ i ∈ Finset.range n, C (bit (e i)) * X ^ (n - 1 - i) := by
  induction n with
  | zero => simp [ofBits]
  | succ n ih =>
    rw [List.range_succ, List.map_append, List.map_singleton, ofBits_append_singleton, ih,
      Finset.sum_range_succ, Finset.mul_sum]
    refine congrArg₂ (· + ·) ?_ ?_
    · apply Finset.sum_congr rfl
      intro i hi
      have hi' := Finset.mem_range.mp hi
      rw [show n + 1 - 1 - i = (n - 1 - i) + 1 by omega, pow_succ]
      ring
    · simp

theorem ofBits_wordBits (r : BitVec w) : ofBits (wordBits r) = toPoly r := by
  rw [wordBits, toPoly]
  rw [ofBits_map_range, ← Finset.sum_range_reflect]
  apply Finset.sum_congr rfl
  intro i hi
  have hi' := Finset.mem_range.mp hi
  have he : w - 1 - (w - 1 - i) = i := by omega
  rw [BitVec.getMsbD_eq_getLsbD, he]
  simp [show w - 1 - i < w by omega]

theorem wordBits_append {m n : Nat} (a : BitVec m) (b : BitVec n) :
    wordBits (a ++ b) = wordBits a ++ wordBits b := by
  rw [wordBits]
  rw [List.range_add, List.map_append, List.map_map]
  congr 1
  · apply List.map_congr_left
    intro i hi
    rw [BitVec.getMsbD_append, if_neg (Nat.not_le.mpr (List.mem_range.mp hi))]
  · apply List.map_congr_left
    intro i _
    rw [Function.comp_apply, BitVec.getMsbD_append, if_pos (by omega), Nat.add_sub_cancel_left]

theorem ofBits_flips (n : Nat) (S : Finset Nat) (hS : ∀ i ∈ S, i < n) :
    ofBits ((List.range n).map (fun i => decide (i ∈ S))) = errorPoly n S := by
  rw [ofBits_map_range]
  have hs : S = (Finset.range n).filter (fun i => i ∈ S) := by
    ext i
    simp only [Finset.mem_filter, Finset.mem_range]
    exact ⟨fun h => ⟨hS i h, h⟩, fun h => h.2⟩
  rw [errorPoly]
  conv_rhs => rw [hs]
  rw [Finset.sum_filter]
  apply Finset.sum_congr rfl
  intro i _
  by_cases hi : i ∈ S <;> simp [hi]

variable {G : (ZMod 2)[X]}

theorem dvd_of_dvd_X_pow_mul (hG : IsCoprime G X) {k : Nat} {p : (ZMod 2)[X]} (h : G ∣ X ^ k * p) :
    G ∣ p := (hG.pow_right).dvd_of_dvd_mul_left h

theorem coprime_X (hG : G.coeff 0 = 1) : IsCoprime G X := by
  refine ⟨1, -G.divX, ?_⟩
  have h := divX_mul_X_add G
  rw [hG, C_1] at h
  linear_combination -h

/-- A divisor prime to `X` divides no burst of flips as long as its degree. -/
theorem burst_not_dvd (hm : G.Monic) (hG : IsCoprime G X) {n k : Nat} {S : Finset Nat}
    (hS : S.Nonempty) (hk : ∀ i ∈ S, k ≤ i ∧ i < k + G.natDegree) (hn : ∀ i ∈ S, i < n) :
    ¬ G ∣ errorPoly n S := by
  intro hd
  let m := S.max' hS
  have hmS : m ∈ S := S.max'_mem hS
  have hle : ∀ i ∈ S, i ≤ m := fun i hi => S.le_max' i hi
  let p : (ZMod 2)[X] := ∑ i ∈ S, X ^ (m - i)
  have he : errorPoly n S = X ^ (n - 1 - m) * p := by
    rw [errorPoly]
    rw [Finset.mul_sum]
    apply Finset.sum_congr rfl
    intro i hi
    have hexp : n - 1 - m + (m - i) = n - 1 - i := by
      have := hle i hi
      have := hn m hmS
      omega
    rw [← pow_add, hexp]
  have hp : p.coeff 0 = 1 := by
    rw [finsetSum_coeff, Finset.sum_eq_single m]
    · simp
    · intro i hi hne
      have := hle i hi
      rw [coeff_X_pow, if_neg (by omega)]
    · exact fun h => absurd hmS h
  have hp0 : p ≠ 0 := by
    intro h
    simp [h] at hp
  have hdeg : p.degree < G.degree := by
    rw [degree_eq_natDegree hm.ne_zero, degree_lt_iff_coeff_zero]
    intro j hj
    rw [finsetSum_coeff]
    apply Finset.sum_eq_zero
    intro i hi
    have := hk i hi
    have := hk m hmS
    rw [coeff_X_pow, if_neg (by omega)]
  rw [he] at hd
  exact hm.not_dvd_of_degree_lt hp0 hdeg (dvd_of_dvd_X_pow_mul hG hd)

/-- Two flips closer than the order of `X` modulo the divisor. -/
theorem pair_not_dvd (hG : IsCoprime G X) {n i j : Nat} (hij : i < j) (hj : j < n)
    (ho : j - i < orderOf (AdjoinRoot.root G)) : ¬ G ∣ errorPoly n {i, j} := by
  intro hd
  have he : errorPoly n {i, j} = X ^ (n - 1 - j) * (X ^ (j - i) - 1) := by
    have hexp : n - 1 - j + (j - i) = n - 1 - i := by omega
    rw [errorPoly, CharTwo.sub_eq_add, Finset.sum_pair (Nat.ne_of_lt hij), mul_add, ← pow_add,
      mul_one, hexp]
  rw [he] at hd
  have hz := AdjoinRoot.mk_eq_zero.mpr (dvd_of_dvd_X_pow_mul hG hd)
  rw [map_sub, map_pow, map_one, AdjoinRoot.mk_X, sub_eq_zero] at hz
  have := Nat.le_of_dvd (by omega) (orderOf_dvd_of_pow_eq_one hz)
  omega

/-- An odd number of flips, when `1` is a root of the divisor. -/
theorem odd_not_dvd (hG : G.eval 1 = 0) {n : Nat} {S : Finset Nat} (hS : Odd S.card) :
    ¬ G ∣ errorPoly n S := by
  rintro ⟨q, hq⟩
  have h := congrArg (eval 1) hq
  rw [eval_mul, hG, zero_mul, errorPoly, eval_finsetSum] at h
  simp only [eval_pow, eval_X, one_pow, Finset.sum_const, nsmul_eq_mul, mul_one] at h
  rw [ZMod.natCast_eq_zero_iff_even] at h
  exact Nat.not_even_iff_odd.mpr hS h

theorem errorPoly_pair {n i j : Nat} (hij : i < j) (hj : j < n) :
    errorPoly n {i, j} = X ^ (n - 1 - j) * (X ^ (j - i) - 1) := by
  have hexp : n - 1 - j + (j - i) = n - 1 - i := by omega
  rw [errorPoly, CharTwo.sub_eq_add, Finset.sum_pair (Nat.ne_of_lt hij), mul_add, ← pow_add,
    mul_one, hexp]

/-- The distances of two flips that the divisor divides. -/
theorem pair_dvd_iff (hG : IsCoprime G X) {n i j : Nat} (hij : i < j) (hj : j < n) :
    G ∣ errorPoly n {i, j} ↔ orderOf (AdjoinRoot.root G) ∣ j - i := by
  have hroot : G ∣ X ^ (j - i) - 1 ↔ AdjoinRoot.root G ^ (j - i) = 1 := by
    rw [← AdjoinRoot.mk_eq_zero, map_sub, map_pow, map_one, AdjoinRoot.mk_X, sub_eq_zero]
  rw [errorPoly_pair hij hj, orderOf_dvd_iff_pow_eq_one, ← hroot]
  exact ⟨dvd_of_dvd_X_pow_mul hG, fun h => Dvd.dvd.mul_left h _⟩

/-- What lies behind the last flip does not matter. -/
theorem errorPoly_shift {n last : Nat} {S : Finset Nat} (hin : ∀ i ∈ S, i ≤ last) (hn : last < n) :
    errorPoly n S = X ^ (n - 1 - last) * errorPoly (last + 1) S := by
  rw [errorPoly, errorPoly, Finset.mul_sum]
  apply Finset.sum_congr rfl
  intro i hi
  have hexp : n - 1 - last + (last + 1 - 1 - i) = n - 1 - i := by
    have := hin i hi
    omega
  rw [← pow_add, hexp]

theorem coeff_errorPoly {n e : Nat} {S : Finset Nat} (hS : ∀ i ∈ S, i < n) (he : e < n) :
    (errorPoly n S).coeff e = if n - 1 - e ∈ S then 1 else 0 := by
  have hterm (i : Nat) (hi : i ∈ S) :
      (X ^ (n - 1 - i) : (ZMod 2)[X]).coeff e = if i = n - 1 - e then 1 else 0 := by
    have := hS i hi
    rw [coeff_X_pow]
    exact if_congr (by omega) rfl rfl
  rw [errorPoly, finsetSum_coeff, Finset.sum_congr rfl hterm, Finset.sum_ite_eq']

theorem natDegree_errorPoly_le {n d : Nat} {S : Finset Nat} (hS : ∀ i ∈ S, n ≤ i + d + 1) :
    (errorPoly n S).natDegree ≤ d := by
  apply natDegree_sum_le_of_forall_le
  intro i hi
  have := hS i hi
  exact (natDegree_X_pow_le _).trans (by omega)

/-- Over GF(2) a divisor divides nothing else of its degree but itself. -/
theorem dvd_iff_eq {p : (ZMod 2)[X]} (hm : G.Monic) (hp : p ≠ 0)
    (hdegree : p.natDegree ≤ G.natDegree) : G ∣ p ↔ p = G := by
  have hone : ∀ c : ZMod 2, c ≠ 0 → c = 1 := by decide
  constructor
  · intro h
    have hlead := eq_leadingCoeff_mul_of_monic_of_dvd_of_natDegree_le hm h hdegree
    rwa [hone _ (leadingCoeff_ne_zero.mpr hp), C_1, one_mul] at hlead
  · rintro rfl
    exact dvd_rfl

/-- The flips that the divisor divides within a stretch that is one longer than its degree are
those of the divisor itself. -/
theorem stretch_dvd_iff (hm : G.Monic) (hG : IsCoprime G X) {n last : Nat} {S : Finset Nat}
    (hS : S.Nonempty) (hn : last < n) (hlast : G.natDegree ≤ last)
    (hin : ∀ i ∈ S, i ≤ last ∧ last ≤ i + G.natDegree) :
    G ∣ errorPoly n S ↔ ∀ e ≤ G.natDegree, last - e ∈ S ↔ G.coeff e = 1 := by
  have hbefore : ∀ i ∈ S, i < last + 1 := fun i hi => Nat.lt_succ_of_le (hin i hi).1
  have hdegree : (errorPoly (last + 1) S).natDegree ≤ G.natDegree :=
    natDegree_errorPoly_le (fun i hi => Nat.succ_le_succ (hin i hi).2)
  have hcoeff (e : Nat) (he : e ≤ G.natDegree) :
      (errorPoly (last + 1) S).coeff e = if last - e ∈ S then 1 else 0 :=
    coeff_errorPoly hbefore (by omega)
  have hne : errorPoly (last + 1) S ≠ 0 := by
    obtain ⟨i, hi⟩ := hS
    have hback : last - (last - i) = i := Nat.sub_sub_self (hin i hi).1
    intro h
    have hi' := hcoeff (last - i) (by have := (hin i hi).2; omega)
    rw [h, coeff_zero, hback, if_pos hi] at hi'
    exact zero_ne_one hi'
  have hshift : G ∣ errorPoly n S ↔ G ∣ errorPoly (last + 1) S := by
    rw [errorPoly_shift (fun i hi => (hin i hi).1) hn]
    exact ⟨dvd_of_dvd_X_pow_mul hG, fun h => Dvd.dvd.mul_left h _⟩
  rw [hshift, dvd_iff_eq hm hne hdegree]
  constructor
  · intro h e he
    rw [← h, hcoeff e he]
    simp
  · intro h
    ext e
    obtain he | he := Nat.lt_or_ge G.natDegree e
    · rw [coeff_eq_zero_of_natDegree_lt he, coeff_eq_zero_of_natDegree_lt (hdegree.trans_lt he)]
    · have hbit : ∀ c : ZMod 2, c ≠ 1 → c = 0 := by decide
      rw [hcoeff e he]
      split
      · next hmem => exact ((h e he).mp hmem).symm
      · next hmem => exact (hbit _ (fun hc => hmem ((h e he).mpr hc))).symm

end Ti3.Library.CyclicCode
