import Ti3.Library.MaximalRuns
import Ti3.Library.Stdio

namespace Ti3.Filters.Wc

open Library.CString Library.Interaction Library.Rules Library.Determinism Library.Stdio
open Library.MaximalRuns

def inputError : Nat := 1
def outputError : Nat := 2
def argError : Nat := 3

/-- Newlines, tabs and blanks are regarded whitespace. -/
def isWhitespace (character : UInt8) : Bool := character = 10 || character = 32 || character = 9

/-- The counters, which are `int`s, and whether we are in a word. -/
structure State where
  newlineCnt : BitVec 32
  wordCnt : BitVec 32
  byteCnt : BitVec 32
  inWord : Bool
  deriving DecidableEq

def State.start : State := ⟨0, 0, 0, false⟩

def State.count (s : State) (curChar : UInt8) : State :=
  let s := { s with byteCnt := s.byteCnt + 1 }
  let s := if curChar = newline then { s with newlineCnt := s.newlineCnt + 1 } else s
  if ¬ s.inWord ∧ ¬ isWhitespace curChar then { s with wordCnt := s.wordCnt + 1, inWord := true }
  else if isWhitespace curChar then { s with inWord := false }
  else s

/-- `%6d`. -/
def sixWide (n : Int) : Bytes :=
  let digits := ascii (toString n)
  List.replicate (6 - digits.length) 32 ++ digits

/-- `"%6d %6d %6d\n"`. -/
def summary (newlineCnt wordCnt byteCnt : Int) : Bytes :=
  sixWide newlineCnt ++ 32 :: sixWide wordCnt ++ 32 :: sixWide byteCnt ++ [newline]

def wcStep (s : State) : Process (State ⊕ State) := do
  match ← fgetc with
  | none => return .inr s
  | some curChar => return .inl (s.count curChar)

/-- Check whether reading ended abnormally, and print the counts. -/
def report (s : State) : Process Unit := do
  if ← ferror then err outputError (ascii "Error in reading")
  let _ ← printf (summary s.newlineCnt.toInt s.wordCnt.toInt s.byteCnt.toInt)

/-- Prints the number of newlines, words and bytes of the stream. -/
def wc : Process Unit := .loop wcStep .start report

/-- Without an argument the standard input is read; further arguments are
ignored. -/
def main (argv : List Bytes) : Process Unit :=
  match argv with
  | [_] => wc
  | _ :: path :: _ => do
    if ← fopen path then
      wc
      if (← fclose) = eof then err inputError (ascii "Error closing file")
    else err argError (ascii "Cannot open " ++ path ++ ascii " for reading")
  | [] => .halt .fault

/-- Any byte but a blank, a tab and a newline. -/
def isWordByte (b : UInt8) : Bool := !isWhitespace b

/-- The number of words: maximal runs of bytes other than whitespace. -/
def words (content : Bytes) : Nat := runs isWordByte content

variable {disk : Disk} {content : Bytes} {w : World}

theorem count_eq (s : State) (b : UInt8) : s.count b =
    ⟨if b = newline then s.newlineCnt + 1 else s.newlineCnt,
      if isWordByte b ∧ ¬ s.inWord then s.wordCnt + 1 else s.wordCnt, s.byteCnt + 1,
      isWordByte b⟩ := by
  obtain ⟨n, k, m, inWord⟩ := s
  have hn : (b = newline) = True ∨ (b = newline) = False := Classical.propComplete _
  rcases hn with hn | hn <;> cases hw : isWhitespace b <;> cases inWord <;>
    simp [State.count, isWordByte, hn, hw]

theorem add_ofNat_succ (x : BitVec 32) (n : Nat) :
    x + 1 + BitVec.ofNat 32 n = x + BitVec.ofNat 32 (n + 1) := by
  rw [BitVec.ofNat_add, BitVec.add_assoc, BitVec.add_comm 1]
  rfl

/-- What the automaton has counted when it has gone through the bytes. -/
theorem foldl_count (s : State) (content : Bytes) : content.foldl State.count s =
    ⟨s.newlineCnt + BitVec.ofNat 32 (content.count newline),
      s.wordCnt + BitVec.ofNat 32 (runsFrom isWordByte s.inWord content),
      s.byteCnt + BitVec.ofNat 32 content.length, content.getLast?.elim s.inWord isWordByte⟩ := by
  induction content generalizing s with
  | nil => simp [runsFrom]
  | cons b content ih =>
    have hlast : (b :: content).getLast?.elim s.inWord isWordByte =
        content.getLast?.elim (isWordByte b) isWordByte := by
      rw [List.getLast?_cons]
      cases content.getLast? <;> rfl
    rw [List.foldl_cons, ih, count_eq, hlast, List.count_cons, runsFrom, List.length_cons]
    congr 1
    · by_cases hn : b = newline
      · rw [if_pos hn, if_pos (beq_iff_eq.mpr hn), add_ofNat_succ]
      · rw [if_neg hn, if_neg (fun h => hn (beq_iff_eq.mp h)), Nat.add_zero]
    · by_cases hw : isWordByte b ∧ ¬ s.inWord
      · rw [if_pos hw, if_pos hw, Nat.add_comm 1, add_ofNat_succ]
      · rw [if_neg hw, if_neg hw, Nat.zero_add]
    · rw [add_ofNat_succ]

theorem wcStep_eq (s : State) : wcStep s = .call .fgetc (fun
    | none => .done (.inr s)
    | some curChar => .done (.inl (s.count curChar))) := by
  simp only [wcStep, fgetc, library, ask_bind]
  congr 1

/-- The stream is read to its end. -/
theorem wcStep_iterates (s : State) (hw : w.rest = content) :
    Iterates (fun s => Runs (handled (perform disk)) (wcStep s)) s w
      (.returned (content.foldl State.count s)) { w with rest := [] } := by
  induction content generalizing s w with
  | nil =>
    have hend : { w with rest := [] } = w := by rw [← hw]
    rw [hend]
    apply Iterates.stop
    rw [wcStep_eq]
    exact runs_call (fgetc_end hw) runs_done
  | cons b content ih =>
    refine .next ?_ (ih (s.count b) (w := { w with rest := content }) rfl)
    rw [wcStep_eq]
    exact runs_call (fgetc_byte hw) runs_done

theorem report_runs (disk : Disk) (s : State) :
    Runs (handled (perform disk)) (report s) w (.returned ())
      { w with out := w.out ++ summary s.newlineCnt.toInt s.wordCnt.toInt s.byteCnt.toInt } :=
  runs_call rfl (runs_call rfl runs_done)

theorem toInt_ofNat {n : Nat} (h : n < 2 ^ 31) : (0 + BitVec.ofNat 32 n).toInt = n := by
  rw [BitVec.ofNat_eq_ofNat, BitVec.zero_add, BitVec.toInt_ofNat',
    Int.bmod_eq_of_le (by omega) (by omega)]

/-- No counter overflows. -/
theorem counts_toInt (h : content.length < 2 ^ 31) :
    (content.foldl State.count .start).newlineCnt.toInt = content.count newline ∧
      (content.foldl State.count .start).wordCnt.toInt = words content ∧
        (content.foldl State.count .start).byteCnt.toInt = content.length := by
  have hwords : words content = runsFrom isWordByte false content := runs_eq content
  have hle : words content ≤ content.length := by
    rw [hwords]
    exact runsFrom_le false content
  rw [foldl_count]
  refine ⟨toInt_ofNat (Nat.lt_of_le_of_lt List.count_le_length h), ?_, toInt_ofNat h⟩
  exact (toInt_ofNat (hwords ▸ Nat.lt_of_le_of_lt hle h)).trans (congrArg _ hwords.symm)

theorem wc_runs (hw : w.rest = content) (h : content.length < 2 ^ 31) :
    Runs (handled (perform disk)) wc w (.returned ()) ⟨[],
      w.out ++ summary (content.count newline) (words content) content.length, w.errors⟩ := by
  obtain ⟨hnewlines, hwords, hbytes⟩ := counts_toInt h
  have hreport := report_runs disk (w := { w with rest := [] })
    (content.foldl State.count .start)
  rw [hnewlines, hwords, hbytes] at hreport
  exact .next (wcStep_iterates .start hw) hreport

/-- The standard input is counted, or the file that is named. -/
theorem main_runs {argv : List Bytes} (h : content.length < 2 ^ 31)
    (hin : (∃ prog, argv = [prog] ∧ w.rest = content) ∨
      ∃ prog path more, argv = prog :: path :: more ∧ disk.file path = some content) :
    Runs (handled (perform disk)) (main argv) w (.returned ()) ⟨[],
      w.out ++ summary (content.count newline) (words content) content.length, w.errors⟩ := by
  obtain ⟨prog, rfl, hw⟩ | ⟨prog, path, more, rfl, hfile⟩ := hin
  · exact wc_runs hw h
  · let w₁ : World := ⟨[],
      w.out ++ summary (content.count newline) (words content) content.length, w.errors⟩
    have hopen : perform disk w (.fopen path) = (true, { w with rest := content }) := by
      simp only [perform, hfile]
    have hclose : Runs (handled (perform disk)) (do
        if (← fclose) = eof then err inputError (ascii "Error closing file")) w₁ (.returned ())
        w₁ := runs_call rfl runs_done
    simp only [main, fopen, library, ask_bind]
    apply runs_call hopen
    rw [if_pos rfl]
    exact runs_next (wc_runs rfl h) hclose

/-- The numbers of newlines, words and bytes are printed, and a word that is cut in
two is counted twice. -/
theorem wc_counts (disk : Disk) (w : World) (h : w.rest.length < 2 ^ 31) :
    Yields (handled (perform disk)) wc w (fun _ w' => w'.out = w.out ++
        summary (w.rest.count newline) (words w.rest) w.rest.length) ∧
      ∀ a b : Bytes, words (a ++ b) +
        (if a.getLast?.any isWordByte ∧ b.head?.any isWordByte then 1 else 0) =
          words a + words b :=
  ⟨yields_of_runs (wc_runs rfl h) rfl, runs_append⟩

/-- A blank at either end, and two of them between the words. -/
def sample : World := ⟨ascii " one  two\nthree ", [], []⟩

theorem wc_counts_sample : Yields (handled (perform Disk.empty)) wc sample
    (fun _ w' => w'.out = sample.out ++
      summary (sample.rest.count newline) (words sample.rest) sample.rest.length) :=
  (wc_counts Disk.empty sample (by decide)).1

example : sample.rest.count newline = 1 ∧ words sample.rest = 3 ∧
    summary 1 3 16 = ascii "     1      3     16\n" := by decide +kernel

end Ti3.Filters.Wc
