import Mathlib.Data.Nat.Digits.Lemmas

namespace Ti3.Library.LittleEndian

/-- The number that bytes stand for, the lowest of them first. -/
def value (s : List UInt8) : Nat := Nat.ofDigits 256 (s.map UInt8.toNat)

/-- The lowest `k` bytes of a number. -/
def encode : Nat → Nat → List UInt8
  | 0, _ => []
  | k + 1, n => UInt8.ofNat n :: encode k (n / 256)

@[simp] theorem value_nil : value [] = 0 := rfl

@[simp] theorem value_cons (b : UInt8) (s : List UInt8) :
    value (b :: s) = b.toNat + 256 * value s := by
  simp [value, Nat.ofDigits_cons]

theorem value_lt (s : List UInt8) : value s < 256 ^ s.length := by
  have h := Nat.ofDigits_lt_base_pow_length (b := 256) (l := s.map UInt8.toNat) (by omega)
    (fun d hd => by
      obtain ⟨b, _, rfl⟩ := List.mem_map.mp hd
      exact b.toNat_lt)
  rwa [List.length_map] at h

@[simp] theorem length_encode (k n : Nat) : (encode k n).length = k := by
  induction k generalizing n with
  | zero => rfl
  | succ k ih => rw [encode, List.length_cons, ih]

theorem value_encode (k n : Nat) : value (encode k n) = n % 256 ^ k := by
  induction k generalizing n with
  | zero => rw [encode, value_nil, pow_zero, Nat.mod_one]
  | succ k ih =>
    have hs : n % 256 ^ (k + 1) = n % 256 + 256 * (n / 256 % 256 ^ k) := by
      rw [pow_succ', Nat.mod_mul]
    rw [encode, value_cons, ih, UInt8.toNat_ofNat', hs]

/-- Bytes are the encoding of the number they stand for. -/
theorem encode_value (s : List UInt8) : encode s.length (value s) = s := by
  induction s with
  | nil => rfl
  | cons b s ih =>
    have hb := b.toNat_lt
    have hlow : UInt8.ofNat (b.toNat + 256 * value s) = b := by
      apply UInt8.toNat_inj.mp
      rw [UInt8.toNat_ofNat']
      omega
    have hhigh : (b.toNat + 256 * value s) / 256 = value s := by omega
    rw [List.length_cons, value_cons, encode, hlow, hhigh, ih]

end Ti3.Library.LittleEndian
