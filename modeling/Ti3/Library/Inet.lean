import Mathlib.Algebra.Order.Ring.Int
import Ti3.Library.Numerals

namespace Ti3.Library.Inet

open CString Numerals

/-- An IPv4 address, in the order of the network. -/
structure Address where
  a : UInt8
  b : UInt8
  c : UInt8
  d : UInt8
  deriving DecidableEq

namespace Address

/-- The address with a number. -/
def ofNat (n : Nat) : Address :=
  ⟨UInt8.ofNat (n / 2 ^ 24), UInt8.ofNat (n / 2 ^ 16), UInt8.ofNat (n / 2 ^ 8), UInt8.ofNat n⟩

def toNat (x : Address) : Nat :=
  x.a.toNat * 2 ^ 24 + x.b.toNat * 2 ^ 16 + x.c.toNat * 2 ^ 8 + x.d.toNat

theorem ofNat_toNat (x : Address) : ofNat x.toNat = x := by
  have ha := x.a.toNat_lt
  have hb := x.b.toNat_lt
  have hc := x.c.toNat_lt
  have hd := x.d.toNat_lt
  cases x
  simp only [ofNat, toNat, mk.injEq, ← UInt8.toNat_inj, UInt8.toNat_ofNat'] at *
  omega

end Address

def dot : UInt8 := 46

def decimal (n : Nat) : Bytes := (Nat.toDigits 10 n).map (fun c => UInt8.ofNat c.toNat)

/-- `inet_ntoa`: four decimal numbers with dots between them. -/
def inetNtoa (x : Address) : Bytes :=
  [dot].intercalate [decimal x.a.toNat, decimal x.b.toNat, decimal x.c.toNat, decimal x.d.toNat]

/-- Nothing but digits, and at least one. -/
def whole (base : Nat) (s : Bytes) : Option Nat :=
  if s ≠ [] ∧ s.all (isDigit base) then some (number base s) else none

/-- A component of an address: hexadecimal with a leading `0x` or `0X`, octal with
a leading zero, decimal otherwise. -/
def component (s : Bytes) : Option Nat :=
  if s.take 2 = ascii "0x" ∨ s.take 2 = ascii "0X" then whole 16 (s.drop 2)
  else if s.head? = some 48 then whole 8 s
  else whole 10 s

/-- The components with their places, the last of which takes all that is left. -/
def assemble : List Nat → Option Nat
  | [a] => if a < 2 ^ 32 then some a else none
  | [a, b] => if a < 2 ^ 8 ∧ b < 2 ^ 24 then some (a * 2 ^ 24 + b) else none
  | [a, b, c] =>
    if a < 2 ^ 8 ∧ b < 2 ^ 8 ∧ c < 2 ^ 16 then some (a * 2 ^ 24 + b * 2 ^ 16 + c) else none
  | [a, b, c, d] =>
    if a < 2 ^ 8 ∧ b < 2 ^ 8 ∧ c < 2 ^ 8 ∧ d < 2 ^ 8 then
      some (a * 2 ^ 24 + b * 2 ^ 16 + c * 2 ^ 8 + d)
    else none
  | _ => none

/-- `inet_aton`, which also takes shortened addresses. -/
def inetAton (s : Bytes) : Option Address :=
  ((s.splitOn dot).mapM component).bind (fun parts => (assemble parts).map Address.ofNat)

example : inetAton (ascii "127.1") = some ⟨127, 0, 0, 1⟩ ∧
    inetAton (ascii "0x7f.0.01") = some ⟨127, 0, 0, 1⟩ ∧ inetAton (ascii "1.2.3.") = none := by
  decide +kernel

end Ti3.Library.Inet
