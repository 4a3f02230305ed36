import Ti3.Grep.Matching
import Ti3.Library.Embedding
import Ti3.Library.Execution
import Ti3.Library.Faults

namespace Ti3.Grep.CommandLine

open Library.CString Library.Interaction Library.Rules Library.Determinism Library.Embedding
open Library.Execution Library.Faults PseudoGrep Matching

def argError : Nat := 3

/-- The calls of the search, on the standard input until a file is opened. -/
inductive Call where
  | fopen (path : Bytes)
  | fclose
  | search (c : PseudoGrep.Call)

abbrev Answer : Call → Type
  | .fopen _ => Bool
  | .fclose => Int
  | .search c => PseudoGrep.Answer c

abbrev Process := Program Call Answer Exit

def searched {α : Type} (p : PseudoGrep.Process α) : Process α :=
  embed .search (fun _ a => a) id p

def fail {α : Type} (code : Nat) (message : Bytes) : Process α := .halt (.status code message)

def library (c : Call) : Process (Answer c) := ask c

def fopen (path : Bytes) : Process Bool := library (.fopen path)
def fclose : Process Int := library .fclose

/-- Search the file, or with just the pattern as argument the standard input; then the null
pointer behind the arguments is opened. -/
def main (argv : List Bytes) : Process Unit :=
  match argv with
  | [] => .halt .fault
  | [_] => fail argError (ascii "There must be at least two command line arguments")
  | [_, pattern] => do
    searched (pseudoGrep pattern pattern.length)
    .halt .fault
  | _ :: pattern :: path :: _ => do
    if ← fopen path then
      searched (pseudoGrep pattern pattern.length)
      if (← fclose) = eof then fail inputError (ascii "Error closing file")
    else fail argError (ascii "Cannot open " ++ path ++ ascii " for reading")

/-- The library where nothing fails but the opening of what is not there. -/
def perform (disk : Bytes → Option Bytes) (w : World) : (c : Call) → Answer c × World
  | .fopen path => match disk path with
    | some content => (true, { w with content := content, pos := 0 })
    | none => (false, w)
  | .fclose => (0, w)
  | .search c => Matching.perform w c

/-- `ferror` tells of the reads that have failed. -/
def works (disk : Bytes → Option Bytes) (s : World × Condition) :
    (c : Call) → Answer c → World × Condition → Prop
  | .search .ferror, a, s' => a = s.2.reading ∧ s' = s
  | .fopen path, a, s' => perform disk s.1 (.fopen path) = (a, s'.1) ∧
      s'.2 = if a then s.2.opened else s.2
  | c, a, s' => perform disk s.1 c = (a, s'.1) ∧ s'.2 = s.2

/-- Of a failing `printf` a part may have been written. -/
def fails (s : World × Condition) : (c : Call) → Answer c → World × Condition → Prop
  | .fopen _, a, s' => a = false ∧ s' = (s.1, s.2.fail)
  | .fclose, a, s' => a = eof ∧ s' = (s.1, s.2.fail)
  | .search .fgetc, a, s' => a = eof ∧ s' = (s.1, .failed true)
  | .search (.fseek _), a, s' => a = -1 ∧
      s' = ({ s.1 with refused := s.1.refused + 1 }, s.2.fail)
  | .search (.fputc _), a, s' => a = eof ∧ s' = (s.1, s.2.fail)
  | .search (.printf text), a, s' => a < 0 ∧ ∃ t, t <+: text ∧
      s' = ({ s.1 with out := s.1.out ++ t }, s.2.fail)
  | .search .ferror, _, _ => False

/-- Any call may fail at any time. -/
def flaky (disk : Bytes → Option Bytes) : Environment Call Answer (World × Condition) :=
  fun s c a s' => works disk s c a s' ∨ fails s c a s'

def Extends (w w' : World) : Prop := w.out <+: w'.out

instance : Std.Refl Extends := ⟨fun _ => List.prefix_rfl⟩

instance : IsTrans World Extends := ⟨fun _ _ _ => List.IsPrefix.trans⟩

variable {α : Type} {disk : Bytes → Option Bytes} {w w₁ : World} {m : Condition}
variable {s : World × Condition} {pattern content stdin : Bytes}

theorem search_extends (w : World) (c : PseudoGrep.Call) :
    Extends w (Matching.perform w c).2 := by
  cases c with
  | fgetc =>
    simp only [Matching.perform]
    cases w.content[w.pos]? <;> exact List.prefix_rfl
  | fseek offset =>
    simp only [Matching.perform]
    split <;> exact List.prefix_rfl
  | ferror => exact List.prefix_rfl
  | fputc | printf => exact List.prefix_append _ _

theorem perform_extends (disk : Bytes → Option Bytes) (w : World) (c : Call) :
    Extends w (perform disk w c).2 := by
  cases c with
  | fopen path =>
    simp only [perform]
    cases disk path <;> exact List.prefix_rfl
  | fclose => exact List.prefix_rfl
  | search c => exact search_extends w c

theorem fails_faulty {s' : World × Condition} {c : Call} {a : Answer c} (h : fails s c a s') :
    s'.2 ≠ .fine := by
  cases c with
  | fopen | fclose =>
    obtain ⟨-, rfl⟩ := h
    exact fun h => by cases h
  | search c =>
    cases c with
    | fgetc | fseek | fputc =>
      obtain ⟨-, rfl⟩ := h
      exact fun h => by cases h
    | printf =>
      obtain ⟨-, t, -, rfl⟩ := h
      exact fun h => by cases h
    | ferror => exact h.elim

theorem works_fine {s' : World × Condition} {c : Call} {a : Answer c}
    (h : works disk (w, .fine) c a s') : perform disk w c = (a, s'.1) ∧ s'.2 = .fine := by
  cases c with
  | fopen path =>
    refine ⟨h.1, h.2.trans ?_⟩
    cases a <;> rfl
  | fclose => exact h
  | search c =>
    cases c with
    | ferror =>
      obtain ⟨rfl, rfl⟩ := h
      exact ⟨rfl, rfl⟩
    | fgetc | fseek | fputc | printf => exact h

theorem flaky_sound (disk : Bytes → Option Bytes) : Sound (perform disk) (flaky disk) .fine := by
  intro w c a w' h
  obtain h | h := h
  · exact (works_fine h).1
  · exact absurd rfl (fails_faulty h)

theorem flaky_fails {c : Call} {a : Answer c} (hm : m ≠ .fine)
    (h : flaky disk (w, .fine) c a (w₁, m)) : fails (w, .fine) c a (w₁, m) := by
  obtain h | h := h
  · exact absurd (works_fine h).2 hm
  · exact h

section search

/-- What the search meets. -/
abbrev searching (disk : Bytes → Option Bytes) :
    Environment PseudoGrep.Call PseudoGrep.Answer (World × Condition) :=
  restricted .search (fun _ a => a) (flaky disk)

/-- No more has been written but a part of a number. -/
def Written (w₁ : World) (s : World × Condition) : Prop :=
  ∃ n : Int, s.1.out <+: w₁.out ++ ascii (toString n)

def Failure : Exit → Prop
  | .status code _ => code ≠ 0
  | .fault => False

abbrev Aborts (w₁ : World) (o : Outcome Exit α) (s : World × Condition) : Prop :=
  Stopped Written Failure w₁ o s

theorem written_self (w : World) (m : Condition) : Written w (w, m) :=
  ⟨0, List.prefix_append _ _⟩

theorem err_stopped {E : Outcome Exit α → World × Condition → Prop} {code : Nat} {message : String}
    (hs : s.2 ≠ .fine) (hout : Written w₁ s) (hcode : code ≠ 0) (hE : ∀ o, Aborts w₁ o s → E o s) :
    Guarantees (searching disk) (err code message) s (fun o s' => s'.2 ≠ .fine ∧ E o s') :=
  halt_stopped hs hout hcode hE

/-- A failing read is noticed by `ferror`. -/
theorem ferror_stopped {E : Outcome Exit α → World × Condition → Prop} {code : Nat}
    {message : String} {p : PseudoGrep.Process α} (hcode : code ≠ 0)
    (hE : ∀ o, Aborts w o (w, .failed true) → E o (w, .failed true)) :
    Guarantees (searching disk) (do if ← ferror then err code message else p) (w, .failed true)
      (fun o s' => s'.2 ≠ .fine ∧ E o s') := by
  have hfaulty : Condition.failed true ≠ .fine := fun h => by cases h
  refine guarantees_call.mpr ⟨⟨hfaulty, hE _ ⟨written_self w _, .inl rfl⟩⟩, fun a s h => ?_⟩
  obtain ⟨_, ⟨rfl, rfl⟩ | h, rfl⟩ := h
  · exact err_stopped hfaulty (written_self w _) hcode hE
  · exact h.elim

end search

section main

end main

end Ti3.Grep.CommandLine
