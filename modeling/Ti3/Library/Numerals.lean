import Ti3.Library.CString

namespace Ti3.Library.Numerals

open CString

/-- The value of a digit, hexadecimal ones in either case. -/
def digit (base : Nat) (b : UInt8) : Option Nat :=
  let value :=
    if 48 ≤ b ∧ b ≤ 57 then b.toNat - 48
    else if 97 ≤ b ∧ b ≤ 102 then b.toNat - 87
    else if 65 ≤ b ∧ b ≤ 70 then b.toNat - 55
    else base
  if value < base then some value else none

def isDigit (base : Nat) (b : UInt8) : Bool := (digit base b).isSome

/-- The number that digits stand for, the highest of them first. -/
def number (base : Nat) (s : Bytes) : Nat :=
  s.foldl (fun n b => n * base + (digit base b).getD 0) 0

/-- A text that does not go on with a digit. -/
def Stops (base : Nat) (rest : Bytes) : Prop := ∀ b ∈ rest.head?, ¬ isDigit base b

variable {base : Nat} {s rest : Bytes}

theorem stops_nil : Stops base [] := nofun

theorem stops_cons {b : UInt8} (h : ¬ isDigit base b) : Stops base (b :: rest) := by
  rintro c ⟨⟩
  exact h

theorem takeWhile_digits (hs : ∀ b ∈ s, isDigit base b) (hr : Stops base rest) :
    (s ++ rest).takeWhile (isDigit base) = s := by
  rw [List.takeWhile_append_of_pos hs]
  cases rest with
  | nil => rw [List.takeWhile_nil, List.append_nil]
  | cons b rest => rw [List.takeWhile_cons_of_neg (hr b rfl), List.append_nil]

theorem dropWhile_digits (hs : ∀ b ∈ s, isDigit base b) (hr : Stops base rest) :
    (s ++ rest).dropWhile (isDigit base) = rest := by
  rw [List.dropWhile_append_of_pos hs]
  cases rest with
  | nil => rfl
  | cons b rest => rw [List.dropWhile_cons_of_neg (hr b rfl)]

/-- `isspace`. -/
def isSpace (b : UInt8) : Bool := b = 32 || (9 ≤ b && b ≤ 13)

def skipSpace (s : Bytes) : Bytes := s.dropWhile isSpace

/-- An optional sign. -/
def sign : Bytes → Bool × Bytes
  | [] => (false, [])
  | b :: s => if b = 45 then (true, s) else if b = 43 then (false, s) else (false, b :: s)

def signed (negative : Bool) (n : Nat) : Int := if negative then -n else n

/-- `%d` in `sscanf`: the number, and what stands behind it. -/
def scanInt (s : Bytes) : Option (Int × Bytes) :=
  let (negative, s) := sign (skipSpace s)
  let digits := s.takeWhile (isDigit 10)
  if digits = [] then none
  else some (signed negative (number 10 digits), s.dropWhile (isDigit 10))

/-- `atoi`. -/
def atoi (s : Bytes) : Int := ((scanInt s).map Prod.fst).getD 0

/-- A decimal number with or without a sign. -/
def Numeral (s : Bytes) (z : Int) : Prop :=
  ∃ digits, digits ≠ [] ∧ (∀ b ∈ digits, isDigit 10 b) ∧
    ((s = digits ∧ z = number 10 digits) ∨ (s = 43 :: digits ∧ z = number 10 digits) ∨
      (s = 45 :: digits ∧ z = -number 10 digits))

theorem isDigit_ten {b : UInt8} : isDigit 10 b ↔ 48 ≤ b.toNat ∧ b.toNat ≤ 57 := by
  simp only [isDigit, digit, UInt8.le_iff_toNat_le, UInt8.reduceToNat]
  split_ifs <;> simp <;> omega

theorem skipSpace_stops {b : UInt8} (h : ¬ isSpace b) : skipSpace (b :: s) = b :: s :=
  List.dropWhile_cons_of_neg h

theorem digit_plain {b : UInt8} (h : isDigit 10 b) : ¬ isSpace b ∧ b ≠ 45 ∧ b ≠ 43 := by
  obtain ⟨hl, hu⟩ := isDigit_ten.mp h
  simp only [isSpace, Bool.or_eq_true, Bool.and_eq_true, decide_eq_true_eq, UInt8.le_iff_toNat_le,
    ne_eq, ← UInt8.toNat_inj, UInt8.reduceToNat]
  omega

theorem scanInt_numeral {z : Int} (h : Numeral s z) (hr : Stops 10 rest) :
    scanInt (s ++ rest) = some (z, rest) := by
  obtain ⟨digits, hne, hd, hs⟩ := h
  have hscan (negative : Bool) (hs : sign (skipSpace (s ++ rest)) = (negative, digits ++ rest)) :
      scanInt (s ++ rest) = some (signed negative (number 10 digits), rest) := by
    simp only [scanInt, hs, takeWhile_digits hd hr, dropWhile_digits hd hr]
    rw [if_neg hne]
  obtain ⟨rfl, rfl⟩ | ⟨rfl, rfl⟩ | ⟨rfl, rfl⟩ := hs
  · obtain ⟨b, t, rfl⟩ := List.exists_cons_of_ne_nil hne
    obtain ⟨hspace, hminus, hplus⟩ := digit_plain (hd b List.mem_cons_self)
    apply hscan false
    rw [List.cons_append, skipSpace_stops hspace, sign, if_neg hminus, if_neg hplus]
  · exact hscan false rfl
  · exact hscan true rfl

end Ti3.Library.Numerals
