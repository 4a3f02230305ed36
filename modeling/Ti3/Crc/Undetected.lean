import Ti3.Crc.Detection

namespace Ti3.Crc.Undetected

open Polynomial
open Library.CString Library.DivisionRegister Library.CyclicCode
open Tool Remainder Checksum Detection

variable {S : Finset Nat} {d e : Bytes} {i j k : Nat}

/-- Flips go unnoticed exactly if the divisor divides them, whatever the payload is. -/
theorem verdict_flipBits_iff (hd : d.length + 2 < 2 ^ 28) (he : Calculates d e)
    (hS : ∀ i ∈ S, i < 8 * e.length) :
    Verdict (flipBits S e) true ↔ generator poly ∣ errorPoly (8 * e.length) S := by
  have hc : e = checksummed d := (calculates_iff hd).mp he
  have hlength : (flipBits S e).length < 2 ^ 28 := by
    have hflipped : (flipBits S e).length = e.length := List.length_mapIdx
    have hsum : e.length = d.length + 2 := by
      rw [hc]
      simp [checksummed]
    omega
  have hzero : crc e = 0 := hc ▸ crc_checksummed d
  rw [verdict_iff hlength, decide_eq_true_iff, crc_flipBits hzero hS]

theorem coeff_generator {n : Nat} (hn : n ≤ 16) :
    (generator poly).coeff n = 1 ↔ n = 0 ∨ n = 2 ∨ n = 15 ∨ n = 16 := by
  have hcoeff : (generator poly).coeff n = (if n = 16 then 1 else 0) + bit (poly.getLsbD n) := by
    rw [generator, coeff_add, coeff_X_pow, coeff_toPoly]
  have hbits : ∀ n ≤ 16, (if n = 16 then 1 else 0) + bit (poly.getLsbD n) = 1 ↔
      n = 0 ∨ n = 2 ∨ n = 15 ∨ n = 16 := by decide
  rw [hcoeff]
  exact hbits n hn

/-- Two flips. -/
theorem pair_undetected_iff (hd : d.length + 2 < 2 ^ 28) (he : Calculates d e) (hij : i < j)
    (hj : j < 8 * e.length) : Verdict (flipBits {i, j} e) true ↔ 32767 ∣ j - i := by
  have hin : ∀ l ∈ ({i, j} : Finset Nat), l < 8 * e.length := by
    intro l hl
    rw [Finset.mem_insert, Finset.mem_singleton] at hl
    omega
  rw [verdict_flipBits_iff hd he hin, pair_dvd_iff generator_coprime hij hj, orderOf_root]

/-- Flips within 17 bits. -/
theorem stretch_undetected_iff (hd : d.length + 2 < 2 ^ 28) (he : Calculates d e)
    (hS : S.Nonempty) (hk : k + 16 < 8 * e.length) (hin : ∀ i ∈ S, k ≤ i ∧ i ≤ k + 16) :
    Verdict (flipBits S e) true ↔ S = {k, k + 1, k + 14, k + 16} := by
  have hfile : ∀ i ∈ S, i < 8 * e.length := by
    intro i hi
    have := hin i hi
    omega
  have hstretch : ∀ i ∈ S, i ≤ k + 16 ∧ k + 16 ≤ i + (generator poly).natDegree := by
    intro i hi
    have := hin i hi
    rw [natDegree_generator]
    omega
  have hlast : (generator poly).natDegree ≤ k + 16 := by
    rw [natDegree_generator]
    exact Nat.le_add_left 16 k
  rw [verdict_flipBits_iff hd he hfile,
    stretch_dvd_iff (generator_monic poly) generator_coprime hS hk hlast hstretch,
    natDegree_generator]
  have hbits : (∀ n ≤ 16, k + 16 - n ∈ S ↔ (generator poly).coeff n = 1) ↔
      ∀ n ≤ 16, k + 16 - n ∈ S ↔ n = 0 ∨ n = 2 ∨ n = 15 ∨ n = 16 :=
    forall₂_congr (fun n hn => iff_congr Iff.rfl (coeff_generator hn))
  rw [hbits]
  constructor
  · intro h
    ext i
    simp only [Finset.mem_insert, Finset.mem_singleton]
    constructor
    · intro hi
      obtain ⟨hfirst, hlast⟩ := hin i hi
      have hback : k + 16 - (k + 16 - i) = i := Nat.sub_sub_self hlast
      have hn := (h (k + 16 - i) (by omega)).mp (by rwa [hback])
      omega
    · intro hi
      have hback : k + 16 - (k + 16 - i) = i := Nat.sub_sub_self (by omega)
      have hmem := (h (k + 16 - i) (by omega)).mpr (by omega)
      rwa [hback] at hmem
  · rintro rfl n hn
    simp only [Finset.mem_insert, Finset.mem_singleton]
    omega

/-- The errors of two bits that are not noticed, and the only one that lies within 17 bits. -/
theorem undetected_iff (hd : d.length + 2 < 2 ^ 28) (he : Calculates d e) :
    (∀ i j, i < j → j < 8 * e.length →
      (Verdict (flipBits {i, j} e) true ↔ 32767 ∣ j - i)) ∧
    ∀ k S, k + 16 < 8 * e.length → S.Nonempty → (∀ i ∈ S, k ≤ i ∧ i ≤ k + 16) →
      (Verdict (flipBits S e) true ↔ S = {k, k + 1, k + 14, k + 16}) :=
  ⟨fun _ _ hij hj => pair_undetected_iff hd he hij hj,
    fun _ _ hk hS hin => stretch_undetected_iff hd he hS hk hin⟩

theorem undetected_iff_one : Verdict (flipBits {3, 4, 17, 19} (checksummed [1])) true ↔
    ({3, 4, 17, 19} : Finset Nat) = {3, 4, 17, 19} := by
  obtain ⟨-, hstretch⟩ := undetected_iff (by decide) calculates_one
  exact hstretch 3 {3, 4, 17, 19} (by decide) (by decide) (by decide)

end Ti3.Crc.Undetected
