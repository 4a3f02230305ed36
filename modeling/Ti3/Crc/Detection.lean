import Mathlib.Tactic.NormNum.Prime
import Ti3.Crc.Checksum
import Ti3.Library.RegisterPower

namespace Ti3.Crc.Detection

open Library.CString Library.DivisionRegister Library.CyclicCode Library.RegisterPower
open Tool Remainder Checksum

/-- The bits of byte `i` that are among the flipped ones, the most significant
first. -/
def flipMask (S : Finset Nat) (i : Nat) : BitVec 8 :=
  BitVec.ofBoolListBE [decide (8 * i ∈ S), decide (8 * i + 1 ∈ S), decide (8 * i + 2 ∈ S),
    decide (8 * i + 3 ∈ S), decide (8 * i + 4 ∈ S), decide (8 * i + 5 ∈ S),
    decide (8 * i + 6 ∈ S), decide (8 * i + 7 ∈ S)]

/-- A content with the bits at the given positions flipped. -/
def flipBits (S : Finset Nat) (d : Bytes) : Bytes :=
  d.mapIdx (fun i b => ⟨b.toBitVec ^^^ flipMask S i⟩)

theorem getMsbD_flipMask (S : Finset Nat) (i j : Nat) (hj : j < 8) :
    (flipMask S i).getMsbD j = decide (8 * i + j ∈ S) := by
  rw [flipMask]
  interval_cases j <;> simp [BitVec.getMsbD_ofBoolListBE]

theorem fileBits_flipBits (S : Finset Nat) (d : Bytes) :
    fileBits (flipBits S d) = List.zipWith xor (fileBits d)
      ((List.range (8 * d.length)).map (fun i => decide (i ∈ S))) := by
  apply List.ext_getElem?
  intro i
  have hl : (flipBits S d).length = d.length := List.length_mapIdx
  by_cases hi : i < 8 * d.length
  · have h8 : 8 * (i / 8) + i % 8 = i := by omega
    rw [getElem_fileBits _ _ (by omega), List.getElem?_zipWith, getElem_fileBits d i hi]
    have hd : i / 8 < d.length := by omega
    simp [flipBits, hi, hd, getMsbD_flipMask, Nat.mod_lt, h8]
  · rw [List.getElem?_eq_none (by rw [length_fileBits]; omega),
      List.getElem?_eq_none (by simp [length_fileBits]; omega)]

/-- Flips of a valid file go unnoticed only if the divisor divides them. -/
theorem crc_flipBits {S : Finset Nat} {e : Bytes} (he : crc e = 0)
    (hS : ∀ i ∈ S, i < 8 * e.length) :
    crc (flipBits S e) = 0 ↔ generator poly ∣ errorPoly (8 * e.length) S := by
  have hd := (divide_eq_zero_iff (by omega) poly (fileBits e)).mp he
  rw [crc, divide_eq_zero_iff (by omega), fileBits_flipBits,
    ofBits_zipWith_xor _ _ (by simp [length_fileBits]), ofBits_flips _ _ hS]
  exact dvd_add_right hd

theorem verdict_flipBits {S : Finset Nat} {d e : Bytes} (hd : d.length + 2 < 2 ^ 28)
    (he : Calculates d e) (hS : ∀ i ∈ S, i < 8 * e.length)
    (hn : ¬ generator poly ∣ errorPoly (8 * e.length) S) : Verdict (flipBits S e) false := by
  have hc := (calculates_iff hd).mp he
  have hl : (flipBits S e).length = d.length + 2 := by simp [flipBits, hc, checksummed]
  have hz : crc e = 0 := hc ▸ crc_checksummed d
  rw [verdict_iff (by omega), decide_eq_false_iff_not, crc_flipBits hz hS]
  exact hn

open Polynomial

theorem generator_coprime : IsCoprime (generator poly) X := by
  apply coprime_X
  simp [generator_poly]

theorem eval_generator : (generator poly).eval 1 = 0 := by
  simp only [generator_poly, eval_add, eval_pow, eval_X, one_pow, eval_one]
  decide

theorem natDegree_generator : (generator poly).natDegree = 16 :=
  natDegree_eq_of_degree_eq_some (degree_generator poly)

theorem residue_two : residue poly 2 = AdjoinRoot.root (generator poly) := by
  have h : toPoly (2 : BitVec 16) = X := by
    have hb : ∀ i < 16, (2 : BitVec 16).getLsbD i = decide (i = 1) := by decide
    rw [toPoly]
    rw [Finset.sum_congr rfl (fun i hi => by rw [hb i (Finset.mem_range.mp hi)])]
    simp [Finset.sum_range_succ]
  rw [residue, h, AdjoinRoot.mk_X]

/-- `X` has order 32767 = 7 * 31 * 151 modulo the divisor. -/
theorem orderOf_root : orderOf (AdjoinRoot.root (generator poly)) = 32767 := by
  have hpow (bits : List Bool) : AdjoinRoot.root (generator poly) ^ exponent bits = 1 ↔
      powReg poly 2 bits = 1#16 := by
    rw [powReg_eq_one_iff (by omega), residue_two]
  apply orderOf_eq_of_pow_and_pow_div_prime (by omega)
  · exact (hpow (List.replicate 15 true)).mpr (by decide +kernel)
  · intro p hp hd
    have h7 : Nat.Prime 7 := by norm_num
    have h31 : Nat.Prime 31 := by norm_num
    have h151 : Nat.Prime 151 := by norm_num
    rw [show 32767 = 7 * 31 * 151 by norm_num, hp.dvd_mul, hp.dvd_mul,
      Nat.prime_dvd_prime_iff_eq hp h7, Nat.prime_dvd_prime_iff_eq hp h31,
      Nat.prime_dvd_prime_iff_eq hp h151] at hd
    obtain (rfl | rfl) | rfl := hd
    · exact (hpow [true, false, false, true, false, false, true, false, false, true, false, false,
        true]).not.mpr (by decide +kernel)
    · exact (hpow [true, false, false, false, false, true, false, false, false, false,
        true]).not.mpr (by decide +kernel)
    · exact (hpow [true, true, false, true, true, false, false, true]).not.mpr
        (by decide +kernel)

/-- The file made of the payload `[1]`. -/
theorem calculates_one : Calculates [1] (checksummed [1]) := (calculates_iff (by decide)).mpr rfl

/-- Bursts of up to 16 bits. -/
theorem burst_detected {S : Finset Nat} {d e : Bytes} {k : Nat} (hd : d.length + 2 < 2 ^ 28)
    (he : Calculates d e) (hS : S.Nonempty) (hk : ∀ i ∈ S, k ≤ i ∧ i < k + 16)
    (hn : ∀ i ∈ S, i < 8 * e.length) : Verdict (flipBits S e) false := by
  rw [← natDegree_generator] at hk
  exact verdict_flipBits hd he hn
    (burst_not_dvd (generator_monic poly) generator_coprime hS hk hn)

theorem burst_detected_one : Verdict (flipBits {3, 18} (checksummed [1])) false :=
  burst_detected (k := 3) (by decide) calculates_one (by decide) (by decide) (by decide)

theorem ordered_pair_detected {d e : Bytes} {i j : Nat} (he : Calculates d e)
    (hd : 8 * (d.length + 2) ≤ 32767) (hij : i < j) (hj : j < 8 * e.length) :
    Verdict (flipBits {i, j} e) false := by
  have hc := (calculates_iff (by omega)).mp he
  have hl : e.length = d.length + 2 := by simp [hc, checksummed]
  refine verdict_flipBits (by omega) he ?_ (pair_not_dvd generator_coprime hij hj ?_)
  · intro k hk
    rw [Finset.mem_insert, Finset.mem_singleton] at hk
    omega
  · rw [orderOf_root]
    omega

/-- Two flips, in files of up to 32767 bits. -/
theorem pair_detected {d e : Bytes} {i j : Nat} (he : Calculates d e)
    (hd : 8 * (d.length + 2) ≤ 32767) (hij : i ≠ j) (hi : i < 8 * e.length)
    (hj : j < 8 * e.length) : Verdict (flipBits {i, j} e) false := by
  obtain h | h := Nat.lt_or_gt_of_ne hij
  · exact ordered_pair_detected he hd h hj
  · rw [Finset.pair_comm]
    exact ordered_pair_detected he hd h hi

theorem pair_detected_one : Verdict (flipBits {0, 23} (checksummed [1])) false :=
  pair_detected calculates_one (by decide) (by decide) (by decide) (by decide)

/-- Any odd number of flips. -/
theorem odd_detected {S : Finset Nat} {d e : Bytes} (hd : d.length + 2 < 2 ^ 28)
    (he : Calculates d e) (hS : Odd S.card) (hn : ∀ i ∈ S, i < 8 * e.length) :
    Verdict (flipBits S e) false :=
  verdict_flipBits hd he hn (odd_not_dvd eval_generator hS)

theorem odd_detected_one : Verdict (flipBits {0, 8, 23} (checksummed [1])) false :=
  odd_detected (by decide) calculates_one (by decide) (by decide)

end Ti3.Crc.Detection
