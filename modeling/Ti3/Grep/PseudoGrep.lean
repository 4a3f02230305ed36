import Ti3.Library.CString
import Ti3.Library.Interaction

namespace Ti3.Grep.PseudoGrep

open Library.CString Library.Interaction

def inputError : Nat := 1
def outputError : Nat := 2

def eof : Int := -1
def newline : Int := 10

/-- The library calls of the search: `fseek` is relative to the current
position, `fputc` and `printf` write to standard output. -/
inductive Call where
  | fgetc
  | fseek (offset : Int)
  | ferror
  | fputc (c : Int)
  | printf (text : Bytes)
  deriving DecidableEq

abbrev Answer : Call → Type
  | .fgetc | .fseek _ | .fputc _ | .printf _ => Int
  | .ferror => Bool

/-- How the process ends: with a status and a message, or by undefined
behaviour. -/
inductive Exit where
  | status (code : Nat) (message : Bytes)
  | fault
  deriving DecidableEq

abbrev Process := Program Call Answer Exit

def library (c : Call) : Process (Answer c) := ask c

def fgetc : Process Int := library .fgetc
def fseek (offset : Int) : Process Int := library (.fseek offset)
def ferror : Process Bool := library .ferror
def fputc (c : Int) : Process Int := library (.fputc c)
def printf (text : Bytes) : Process Int := library (.printf text)

def err {α : Type} (code : Nat) (message : String) : Process α :=
  .halt (.status code (ascii message))

/-- The variables of the search. -/
structure State where
  fromLinestart : Int
  matchedChars : Nat
  deriving DecidableEq

/-- `pattern[i]`, a plain char. The string ends with a zero. -/
def patternChar (pattern : Bytes) (i : Nat) : Process Int :=
  match (pattern ++ [0])[i]? with
  | some b => pure (plainChar b)
  | none => .halt .fault

def printStep : Unit → Process (Unit ⊕ Unit) := fun _ => do
  let lineChar ← fgetc
  if lineChar = eof then return .inr ()
  else if (← fputc lineChar) = eof then err outputError "Error writing to stdout"
  else if lineChar = newline then return .inr ()
  else return .inl ()

/-- Go back to the beginning of the line and print it. -/
def printLine (fromLinestart : Int) : Process State := do
  if (← fseek (-fromLinestart)) = -1 then
    let _ ← printf (ascii (toString (BitVec.ofInt 32 fromLinestart).toInt))
    err inputError "Cannot go back to last newline"
  else
    .loop printStep () fun _ => do
      if ← ferror then err inputError "Error in reading"
      else return ⟨0, 0⟩

/-- The current character is the next one of the pattern. -/
def charMatches (length : Nat) (s : State) (fromLinestart : Int) : Process State :=
  if s.matchedChars + 1 = length then printLine fromLinestart
  else return ⟨fromLinestart, s.matchedChars + 1⟩

/-- Rewind to the position after the first matching character. -/
def charMismatches (s : State) (fromLinestart : Int) : Process State := do
  if s.matchedChars > 0 then
    if (← fseek (-s.matchedChars)) = -1 then err inputError "Cannot go back in input stream"
    else return ⟨fromLinestart - s.matchedChars, 0⟩
  else return ⟨fromLinestart, s.matchedChars⟩

def grepStep (pattern : Bytes) (length : Nat) (s : State) : Process (State ⊕ Unit) := do
  let curChar ← fgetc
  if curChar = eof then return .inr ()
  else
    let fromLinestart := if curChar = newline then 0 else s.fromLinestart + 1
    if curChar = (← patternChar pattern s.matchedChars) then
      return .inl (← charMatches length s fromLinestart)
    else return .inl (← charMismatches s fromLinestart)

/-- Prints every line of the stream containing the pattern. -/
def pseudoGrep (pattern : Bytes) (length : Nat) : Process Unit :=
  .loop (grepStep pattern length) ⟨0, 0⟩ fun _ => do
    if ← ferror then err inputError "Error in reading"

end Ti3.Grep.PseudoGrep
