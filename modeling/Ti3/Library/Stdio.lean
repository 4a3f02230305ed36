import Ti3.Library.CMemory
import Ti3.Library.Determinism

namespace Ti3.Library.Stdio

open CString CMemory Interaction Determinism

def newline : UInt8 := 10

/-- What `fgets` takes from a stream: up to the end of a line, but no more than
`k` bytes. -/
def lineWithin : Nat → Bytes → Bytes
  | 0, _ | _, [] => []
  | k + 1, b :: s => if b = newline then [b] else b :: lineWithin k s

/-- The calls of programs that read one stream after the other. The stream is the
standard input until a file is opened; `fputs` and `printf` write to the standard
output, `fprintf` to the standard error. `array` answers what an array holds before
anything is stored in it. -/
inductive Call where
  | fopen (path : Bytes)
  | fgetc
  | fgets (size : Nat)
  | ferror
  | fclose
  | fputs (text : Bytes)
  | printf (text : Bytes)
  | fprintf (text : Bytes)
  | array (size : Nat)

/-- `fgetc` and `fgets` answer nothing at the end of the stream. -/
abbrev Answer : Call → Type
  | .fopen _ | .ferror => Bool
  | .fgetc => Option UInt8
  | .fgets _ => Option Bytes
  | .fclose | .fputs _ | .printf _ | .fprintf _ => Int
  | .array n => Buffer n

/-- How a process ends early: with a status and a message, or by undefined
behaviour. -/
inductive Exit where
  | status (code : Nat) (message : Bytes)
  | fault
  deriving DecidableEq

abbrev Process := Program Call Answer Exit

def eof : Int := -1

def library (c : Call) : Process (Answer c) := ask c

def fopen (path : Bytes) : Process Bool := library (.fopen path)
def fgetc : Process (Option UInt8) := library .fgetc
def fgets (size : Nat) : Process (Option Bytes) := library (.fgets size)
def ferror : Process Bool := library .ferror
def fclose : Process Int := library .fclose
def fputs (text : Bytes) : Process Int := library (.fputs text)
def printf (text : Bytes) : Process Int := library (.printf text)
def fprintf (text : Bytes) : Process Int := library (.fprintf text)
def array (n : Nat) : Process (Buffer n) := library (.array n)

def err {α : Type} (code : Nat) (message : Bytes) : Process α := .halt (.status code message)

/-- Memory accesses without a result are undefined behaviour. -/
def access {α : Type} : Option α → Process α
  | some a => pure a
  | none => .halt .fault

/-- The files that can be opened, and what arrays hold before anything is stored in
them. -/
structure Disk where
  file : Bytes → Option Bytes
  array : (n : Nat) → Buffer n

def Disk.empty : Disk := ⟨fun _ => none, Buffer.zeros⟩

/-- What is left of the stream, the standard output and the standard error. -/
structure World where
  rest : Bytes
  out : Bytes
  errors : Bytes

/-- The library where nothing fails but the opening of what is not there. -/
def perform (disk : Disk) (w : World) : (c : Call) → Answer c × World
  | .fopen path => match disk.file path with
    | some s => (true, { w with rest := s })
    | none => (false, w)
  | .fgetc => match w.rest with
    | [] => (none, w)
    | b :: s => (some b, { w with rest := s })
  | .fgets size => match lineWithin (size - 1) w.rest with
    | [] => (none, w)
    | line => (some line, { w with rest := w.rest.drop line.length })
  | .ferror => (false, w)
  | .fclose => (0, w)
  | .fputs text => (0, { w with out := w.out ++ text })
  | .printf text => (text.length, { w with out := w.out ++ text })
  | .fprintf text => (text.length, { w with errors := w.errors ++ text })
  | .array n => (disk.array n, w)

variable {disk : Disk} {w : World} {b : UInt8} {s : Bytes}

theorem fgetc_end (h : w.rest = []) : perform disk w .fgetc = (none, w) := by
  simp only [perform, h]

theorem fgetc_byte (h : w.rest = b :: s) :
    perform disk w .fgetc = (some b, { w with rest := s }) := by
  simp only [perform, h]

theorem lineWithin_prefix (k : Nat) (s : Bytes) : lineWithin k s <+: s := by
  induction k generalizing s with
  | zero => exact List.nil_prefix
  | succ k ih =>
    cases s with
    | nil => exact List.nil_prefix
    | cons b s =>
      rw [lineWithin]
      split
      · exact List.prefix_append [b] s
      · exact (List.prefix_cons_inj b).mpr (ih s)

theorem length_lineWithin (k : Nat) (s : Bytes) : (lineWithin k s).length ≤ k := by
  induction k generalizing s with
  | zero => exact Nat.le_refl 0
  | succ k ih =>
    cases s with
    | nil => exact Nat.zero_le _
    | cons b s =>
      rw [lineWithin]
      split
      · exact Nat.succ_le_succ (Nat.zero_le k)
      · exact Nat.succ_le_succ (ih s)

theorem fgets_end {size : Nat} (h : w.rest = []) : perform disk w (.fgets size) = (none, w) := by
  have hline : lineWithin (size - 1) w.rest = [] := by
    rw [h]
    cases size - 1 <;> rfl
  simp only [perform, hline]

/-- A line is taken from a stream that has not come to its end. -/
theorem fgets_line {size : Nat} {line rest : Bytes} (hline : lineWithin (size - 1) w.rest = line)
    (hne : line ≠ []) (h : w.rest = line ++ rest) :
    perform disk w (.fgets size) = (some line, { w with rest := rest }) := by
  have hdrop : w.rest.drop line.length = rest := by
    rw [h, List.drop_left]
  cases line with
  | nil => exact absurd rfl hne
  | cons b l => simp only [perform, hline, hdrop]

theorem exists_lineWithin {k : Nat} (hk : 0 < k) (hs : s ≠ []) :
    ∃ line rest, lineWithin k s = line ∧ line ≠ [] ∧ s = line ++ rest := by
  obtain ⟨rest, hrest⟩ := lineWithin_prefix k s
  refine ⟨_, rest, rfl, ?_, hrest.symm⟩
  obtain ⟨k, rfl⟩ := Nat.exists_eq_succ_of_ne_zero (Nat.ne_of_gt hk)
  obtain ⟨b, s, rfl⟩ := List.exists_cons_of_ne_nil hs
  rw [lineWithin]
  split <;> exact List.cons_ne_nil _ _

/-- The lines of a text. The last one may lack its newline. -/
inductive Laid : List Bytes → Bytes → Prop
  | nil : Laid [] []
  | last {l} : l ≠ [] → Laid [l] l
  | line {l ls s} : Laid ls s → Laid (l :: ls) (l ++ newline :: s)

theorem laid_nil (h : Laid [] s) : s = [] := by
  cases h
  rfl

theorem lineWithin_line {k : Nat} (hl : newline ∉ s) (hk : s.length < k) (rest : Bytes) :
    lineWithin k (s ++ newline :: rest) = s ++ [newline] := by
  induction s generalizing k with
  | nil =>
    obtain ⟨k, rfl⟩ := Nat.exists_eq_succ_of_ne_zero (Nat.ne_of_gt hk)
    exact if_pos rfl
  | cons b s ih =>
    obtain ⟨hb, hl⟩ := not_or.mp (fun h => hl (List.mem_cons.mpr h))
    obtain ⟨k, rfl⟩ := Nat.exists_eq_succ_of_ne_zero (Nat.ne_of_gt (Nat.zero_lt_of_lt hk))
    rw [List.cons_append, lineWithin, if_neg (Ne.symm hb), ih hl (Nat.lt_of_succ_lt_succ hk)]
    rfl

theorem lineWithin_last {k : Nat} (hl : newline ∉ s) (hk : s.length ≤ k) : lineWithin k s = s := by
  induction s generalizing k with
  | nil => cases k <;> rfl
  | cons b s ih =>
    obtain ⟨hb, hl⟩ := not_or.mp (fun h => hl (List.mem_cons.mpr h))
    obtain ⟨k, rfl⟩ := Nat.exists_eq_succ_of_ne_zero (Nat.ne_of_gt (Nat.zero_lt_of_lt hk))
    rw [lineWithin, if_neg (Ne.symm hb), ih hl (Nat.le_of_succ_le_succ hk)]

/-- A line that fits is read whole. -/
theorem laid_line {l : Bytes} {ls : List Bytes} {k : Nat} (h : Laid (l :: ls) s)
    (hl : newline ∉ l) (hk : l.length < k) : ∃ tail rest, (tail = [] ∨ tail = [newline]) ∧
      lineWithin k s = l ++ tail ∧ l ++ tail ≠ [] ∧ s = l ++ tail ++ rest ∧ Laid ls rest := by
  cases h with
  | last hne =>
    refine ⟨[], [], .inl rfl, ?_, ?_, ?_, .nil⟩
    · rw [List.append_nil, lineWithin_last hl (Nat.le_of_lt hk)]
    · rwa [List.append_nil]
    · rw [List.append_nil, List.append_nil]
  | @line _ _ rest h =>
    refine ⟨[newline], rest, .inr rfl, lineWithin_line hl hk rest, by simp, ?_, h⟩
    rw [List.append_assoc]
    rfl

end Ti3.Library.Stdio
