import Mathlib.Algebra.Order.Ring.Int
import Ti3.Library.Numerals
import Ti3.Library.Stdio

namespace Ti3.Mult.MultTest

open Library.CString Library.CMemory Library.Interaction Library.Rules Library.Determinism
open Library.Stdio Library.Numerals

def maxline : Nat := 50

/-- An `int` that is assigned a number; one that does not fit is undefined
behaviour. -/
def int (z : Int) : Process (BitVec 32) :=
  if -2 ^ 31 ≤ z ∧ z < 2 ^ 31 then return BitVec.ofInt 32 z else .halt .fault

/-- `sscanf(s, "%d", ...)`. -/
def scanSum (s : Bytes) : Process (Option (BitVec 32)) := do
  match scanInt s with
  | none => return none
  | some (z, _) => return some (← int z)

/-- `sscanf(s, "%d * %d", ...)`, without a result if there are fewer than two
numbers. -/
def scanProduct (s : Bytes) : Process (Option (BitVec 32 × BitVec 32)) := do
  match scanInt s with
  | none => return none
  | some (a, s) =>
    let fac1 ← int a
    let s := skipSpace s
    if s.head? = some 42 then
      match scanInt s.tail with
      | none => return none
      | some (b, _) => return some (fac1, ← int b)
    else return none

def nextline (outString : Buffer maxline) : Process (Option (Buffer maxline)) := do
  return (← fgets maxline).map (fun line => outString.fill (line ++ [0]))

def illegalFormat (prog filename : Bytes) : Process Nat := do
  let _ ← fprintf (prog ++ ascii ": Illegal format in " ++ filename ++ ascii ".\n")
  return 3

/-- The next line is read and its product is added to the sum. The loop ends
without a sum if the line has another format. -/
def sumStep (v : Buffer maxline × BitVec 32) :
    Process ((Buffer maxline × BitVec 32) ⊕ Option (BitVec 32)) := do
  match ← nextline v.1 with
  | none => return .inr (some v.2)
  | some prodLine =>
    match ← scanProduct (← access (prodLine.string (.inside 0))) with
    | none => return .inr none
    | some (fac1, fac2) => return .inl (prodLine, v.2 + fac1 * fac2)

/-- Print the result and clean up. -/
def conclude (prog filename : Bytes) (expectedSum sum : BitVec 32) : Process Nat := do
  let _ ← printf (if sum = expectedSum then ascii "correct\n" else ascii "incorrect\n")
  if (← fclose) = eof then
    let _ ← fprintf (prog ++ ascii ": Error closing file " ++ filename ++ ascii ".\n")
    return 0
  else return 0

/-- Sum up the products in the remaining lines. -/
def sumLines (prog filename : Bytes) (expectedSum : BitVec 32) : Process Nat := do
  let prodLine ← array maxline
  .loop sumStep (prodLine, 0) fun
    | none => illegalFormat prog filename
    | some sum => conclude prog filename expectedSum sum

/-- Checks whether the first line of a file is the sum of the products in the
following lines. -/
def main (argv : List Bytes) : Process Nat := do
  match argv with
  | [prog, filename] =>
    if ← fopen filename then
      match ← nextline (← array maxline) with
      | none =>
        let _ ← fprintf (prog ++ ascii ": Given file " ++ filename ++ ascii " is empty.\n")
        return 3
      | some sumString =>
        match ← scanSum (← access (sumString.string (.inside 0))) with
        | none => illegalFormat prog filename
        | some expectedSum => sumLines prog filename expectedSum
    else
      let _ ← fprintf (prog ++ ascii ": Can't open " ++ filename ++ ascii "\n")
      return 2
  | prog :: _ =>
    let _ ← fprintf (ascii "Usage: " ++ prog ++ ascii " <filename>\n")
    return 1
  | [] => .halt .fault

/-- The numbers an `int` can hold. -/
def IsInt (z : Int) : Prop := -2 ^ 31 ≤ z ∧ z < 2 ^ 31

/-- A line with two integers separated by `" * "`. -/
def Product (l : Bytes) (p : Int × Int) : Prop :=
  ∃ s t, Numeral s p.1 ∧ Numeral t p.2 ∧ l = s ++ ascii " * " ++ t

/-- The documented format: a first integer, and two more in each of the other
lines. -/
structure Document (content : Bytes) (expected : Int) (factors : List (Int × Int))
    (first : Bytes) (lines : List Bytes) : Prop where
  laid : Laid (first :: lines) content
  short : ∀ l ∈ first :: lines, l.length ≤ 48
  numeral : Numeral first expected
  products : List.Forall₂ Product lines factors
  expectedInt : IsInt expected
  factorInts : ∀ p ∈ factors, IsInt p.1 ∧ IsInt p.2

/-- The exact sum of the products. -/
def exactSum (factors : List (Int × Int)) : Int := (factors.map (fun p => p.1 * p.2)).sum

variable {disk : Disk} {w : World} {s l tail content first prog filename : Bytes} {z : Int}
variable {p : Int × Int} {lines : List Bytes} {factors : List (Int × Int)}

theorem int_eq (h : IsInt z) : int z = .done (BitVec.ofInt 32 z) := if_pos h

theorem numeral_plain (h : Numeral s z) : 0 ∉ s ∧ newline ∉ s := by
  obtain ⟨digits, -, hd, hs⟩ := h
  have hplain {c : UInt8} (hc : ¬ isDigit 10 c) : c ∉ digits := fun h => hc (hd c h)
  have h₀ : (0 : UInt8) ∉ digits := hplain (by decide)
  have hlf : newline ∉ digits := hplain (by decide)
  obtain ⟨rfl, -⟩ | ⟨rfl, -⟩ | ⟨rfl, -⟩ := hs
  · exact ⟨h₀, hlf⟩
  · exact ⟨List.not_mem_cons_of_ne_of_not_mem (by decide) h₀,
      List.not_mem_cons_of_ne_of_not_mem (by decide) hlf⟩
  · exact ⟨List.not_mem_cons_of_ne_of_not_mem (by decide) h₀,
      List.not_mem_cons_of_ne_of_not_mem (by decide) hlf⟩

theorem product_plain (h : Product l p) : 0 ∉ l ∧ newline ∉ l := by
  obtain ⟨s, t, hs, ht, rfl⟩ := h
  obtain ⟨hs₀, hslf⟩ := numeral_plain hs
  obtain ⟨ht₀, htlf⟩ := numeral_plain ht
  exact ⟨List.not_mem_append (List.not_mem_append hs₀ (by decide)) ht₀,
    List.not_mem_append (List.not_mem_append hslf (by decide)) htlf⟩

theorem stops_tail (h : tail = [] ∨ tail = [newline]) : Stops 10 tail := by
  obtain rfl | rfl := h
  · exact stops_nil
  · exact stops_cons (by decide)

theorem scanSum_eq (h : Numeral l z) (hz : IsInt z) (ht : tail = [] ∨ tail = [newline]) :
    scanSum (l ++ tail) = .done (some (BitVec.ofInt 32 z)) := by
  simp only [scanSum, scanInt_numeral h (stops_tail ht), int_eq hz, Program.done_bind,
    Program.pure_eq]

theorem scanProduct_eq (h : Product l p) (h₁ : IsInt p.1) (h₂ : IsInt p.2)
    (ht : tail = [] ∨ tail = [newline]) :
    scanProduct (l ++ tail) = .done (some (BitVec.ofInt 32 p.1, BitVec.ofInt 32 p.2)) := by
  obtain ⟨s, t, hs, ht', rfl⟩ := h
  have hfirst : scanInt (s ++ ascii " * " ++ t ++ tail) =
      some (p.1, ascii " * " ++ (t ++ tail)) := by
    rw [List.append_assoc, List.append_assoc]
    exact scanInt_numeral hs (stops_cons (by decide))
  have hskip : skipSpace (ascii " * " ++ (t ++ tail)) = 42 :: 32 :: (t ++ tail) := rfl
  have hsecond : scanInt (32 :: (t ++ tail)) = some (p.2, tail) :=
    scanInt_numeral ht' (stops_tail ht)
  simp only [scanProduct, hfirst, hskip, int_eq h₁, int_eq h₂, List.head?_cons, List.tail_cons,
    if_true, hsecond, Program.done_bind, Program.pure_eq]

/-- A line of the file is read whole. -/
theorem nextline_runs (disk : Disk) (m : Buffer maxline) (h : Laid (l :: lines) w.rest)
    (hlen : l.length ≤ 48) (hplain : 0 ∉ l ∧ newline ∉ l) : ∃ tail rest m',
      (tail = [] ∨ tail = [newline]) ∧ Laid lines rest ∧ m'.string (.inside 0) = some (l ++ tail) ∧
        Runs (handled (perform disk)) (nextline m) w (.returned (some m'))
          { w with rest := rest } := by
  obtain ⟨tail, rest, ht, hline, hne, hsplit, hrest⟩ :=
    laid_line h hplain.2 (show l.length < maxline - 1 from Nat.lt_succ_of_le hlen)
  have hzero : 0 ∉ l ++ tail := by
    apply List.not_mem_append hplain.1
    obtain rfl | rfl := ht
    · exact List.not_mem_nil
    · decide
  have hfits : (l ++ tail).length < maxline := by
    rw [← hline]
    exact Nat.lt_succ_of_le (length_lineWithin _ _)
  have hstring := string_fill m hfits
  rw [takeWhile_whole hzero] at hstring
  exact ⟨tail, rest, _, ht, hrest, hstring, runs_call (fgets_line hline hne hsplit) runs_done⟩

/-- One product is added, with the arithmetic of an `int`. -/
theorem sumStep_adds (disk : Disk) (m : Buffer maxline) (sum : BitVec 32)
    (h : Laid (l :: lines) w.rest) (hlen : l.length ≤ 48) (hp : Product l p) (h₁ : IsInt p.1)
    (h₂ : IsInt p.2) :
    ∃ m' rest, Laid lines rest ∧ Runs (handled (perform disk)) (sumStep (m, sum)) w
      (.returned (.inl (m', sum + BitVec.ofInt 32 (p.1 * p.2)))) { w with rest := rest } := by
  obtain ⟨tail, rest, m', ht, hrest, hstring, hline⟩ :=
    nextline_runs disk m h hlen (product_plain hp)
  refine ⟨m', rest, hrest, runs_next hline ?_⟩
  simp only [hstring, access, scanProduct_eq hp h₁ h₂ ht, Program.pure_eq, Program.done_bind,
    BitVec.ofInt_mul]
  exact runs_done

theorem sumStep_iterates (disk : Disk) (m : Buffer maxline) (sum : BitVec 32)
    (h : Laid lines w.rest) (hlen : ∀ l ∈ lines, l.length ≤ 48)
    (hp : List.Forall₂ Product lines factors) (hints : ∀ p ∈ factors, IsInt p.1 ∧ IsInt p.2) :
    ∃ rest, Iterates (fun v => Runs (handled (perform disk)) (sumStep v)) (m, sum) w
      (.returned (some (sum + BitVec.ofInt 32 (exactSum factors)))) { w with rest := rest } := by
  induction hp generalizing w m sum with
  | nil =>
    have hempty := laid_nil h
    refine ⟨[], .stop ?_⟩
    have hend : { w with rest := [] } = w := by rw [← hempty]
    rw [hend, exactSum, List.map_nil, List.sum_nil, show BitVec.ofInt 32 0 = 0#32 from rfl,
      BitVec.add_zero]
    exact runs_call (fgets_end hempty) runs_done
  | @cons l p lines factors hl _ ih =>
    obtain ⟨hll, hlen⟩ := List.forall_mem_cons.mp hlen
    obtain ⟨⟨h₁, h₂⟩, hints⟩ := List.forall_mem_cons.mp hints
    obtain ⟨m', rest, hrest, hstep⟩ := sumStep_adds disk m sum h hll hl h₁ h₂
    obtain ⟨rest', hloop⟩ := ih (w := { w with rest := rest }) m'
      (sum + BitVec.ofInt 32 (p.1 * p.2)) hrest hlen hints
    rw [BitVec.add_assoc, ← BitVec.ofInt_add] at hloop
    exact ⟨rest', .next hstep hloop⟩

/-- What is printed about a sum. -/
def verdict (correct : Prop) [Decidable correct] : Bytes :=
  if correct then ascii "correct\n" else ascii "incorrect\n"

theorem conclude_runs (expectedSum sum : BitVec 32) :
    Runs (handled (perform disk)) (conclude prog filename expectedSum sum) w (.returned 0)
      { w with out := w.out ++ verdict (sum = expectedSum) } :=
  runs_call rfl (runs_call rfl runs_done)

/-- The sums are compared as `int`s. -/
theorem main_runs (prog : Bytes) {expected : Int} (hfile : disk.file filename = some content)
    (h : Document content expected factors first lines) : ∃ w',
      Runs (handled (perform disk)) (main [prog, filename]) w (.returned 0) w' ∧
        w'.out = w.out ++
          verdict (BitVec.ofInt 32 (exactSum factors) = BitVec.ofInt 32 expected) := by
  have hopen : perform disk w (.fopen filename) = (true, { w with rest := content }) := by
    simp only [perform, hfile]
  obtain ⟨hfirst, hlines⟩ := List.forall_mem_cons.mp h.short
  obtain ⟨tail, rest, m, ht, hrest, hstring, hline⟩ := nextline_runs disk
    (w := { w with rest := content }) (disk.array maxline) h.laid hfirst (numeral_plain h.numeral)
  obtain ⟨rest', hloop⟩ := sumStep_iterates disk (w := { w with rest := rest })
    (disk.array maxline) 0 hrest hlines h.products h.factorInts
  rw [BitVec.ofNat_eq_ofNat, BitVec.zero_add] at hloop
  refine ⟨⟨rest', w.out ++
    verdict (BitVec.ofInt 32 (exactSum factors) = BitVec.ofInt 32 expected), w.errors⟩, ?_, rfl⟩
  simp only [main, fopen, array, library, ask_bind]
  apply runs_call hopen
  rw [if_pos rfl]
  apply runs_call rfl
  apply runs_next hline
  simp only [hstring, access, scanSum_eq h.numeral h.expectedInt ht, Program.pure_eq,
    Program.done_bind]
  exact runs_call rfl (.next hloop (conclude_runs _ _))

theorem ofInt_eq_iff {x y : Int} :
    BitVec.ofInt 32 x = BitVec.ofInt 32 y ↔ (2 ^ 32 : Int) ∣ x - y := by
  rw [← BitVec.toNat_inj, BitVec.toNat_ofInt, BitVec.toNat_ofInt]
  omega

/-- The verdict is right unless the sum is off by a multiple of `2 ^ 32`. -/
theorem verdict_right_iff (disk : Disk) (w : World) {expected : Int}
    (hfile : disk.file filename = some content)
    (h : Document content expected factors first lines) :
    (Yields (handled (perform disk)) (main [prog, filename]) w (fun status w' =>
        status = 0 ∧ w'.out = w.out ++ ascii "correct\n") ↔ exactSum factors = expected) ↔
      ((2 ^ 32 : Int) ∣ exactSum factors - expected → exactSum factors = expected) := by
  obtain ⟨w', hr, hw'⟩ := main_runs prog (w := w) hfile h
  have hprints : Yields (handled (perform disk)) (main [prog, filename]) w (fun status w' =>
      status = 0 ∧ w'.out = w.out ++ ascii "correct\n") ↔
        (2 ^ 32 : Int) ∣ exactSum factors - expected := by
    rw [← ofInt_eq_iff]
    constructor
    · intro hy
      obtain ⟨-, hout⟩ := yields_returned hy hr
      rw [hw', verdict] at hout
      by_contra hne
      rw [if_neg hne] at hout
      exact absurd (List.append_cancel_left hout) (by decide)
    · intro he
      rw [verdict, if_pos he] at hw'
      exact yields_of_runs hr ⟨rfl, hw'⟩
  rw [hprints]
  constructor
  · exact fun hiff => hiff.mp
  · intro hd
    refine ⟨hd, fun he => ?_⟩
    rw [he, Int.sub_self]
    exact Int.dvd_zero _

/-- The product of the second line does not fit into an `int`. -/
def wide : Bytes := ascii "0\n65536 * 65536\n"

def wideDisk : Disk := ⟨fun _ => some wide, Buffer.zeros⟩

theorem wide_document : Document wide 0 [(65536, 65536)] (ascii "0") [ascii "65536 * 65536"] where
  laid := .line (.line .nil)
  short := by decide
  numeral := ⟨ascii "0", by decide, by decide +kernel, .inl ⟨rfl, by decide⟩⟩
  products := by
    have hfactor : Numeral (ascii "65536") 65536 :=
      ⟨ascii "65536", by decide, by decide +kernel, .inl ⟨rfl, by decide⟩⟩
    exact .cons ⟨ascii "65536", ascii "65536", hfactor, hfactor, rfl⟩ .nil
  expectedInt := ⟨by decide, by decide⟩
  factorInts := by
    intro p hp
    rw [List.mem_singleton.mp hp]
    exact ⟨⟨by decide, by decide⟩, by decide, by decide⟩

theorem verdict_right_iff_wide :
    (Yields (handled (perform wideDisk)) (main [ascii "mult-test", ascii "a"]) ⟨[], [], []⟩
        (fun status w' => status = 0 ∧ w'.out = [] ++ ascii "correct\n") ↔
          exactSum [(65536, 65536)] = 0) ↔
      ((2 ^ 32 : Int) ∣ exactSum [(65536, 65536)] - 0 → exactSum [(65536, 65536)] = 0) :=
  verdict_right_iff wideDisk ⟨[], [], []⟩ rfl wide_document

/-- `2 ^ 32` passes for 0. -/
theorem wide_accepted : ¬
    (Yields (handled (perform wideDisk)) (main [ascii "mult-test", ascii "a"]) ⟨[], [], []⟩
        (fun status w' => status = 0 ∧ w'.out = [] ++ ascii "correct\n") ↔
          exactSum [(65536, 65536)] = 0) := by
  intro h
  have hfile : wideDisk.file (ascii "a") = some wide := rfl
  obtain ⟨w', hr, hw'⟩ := main_runs (ascii "mult-test") (w := ⟨[], [], []⟩) hfile wide_document
  have hsum := h.mp (yields_of_runs hr ⟨rfl, hw'⟩)
  exact absurd hsum (by decide)

end Ti3.Mult.MultTest
