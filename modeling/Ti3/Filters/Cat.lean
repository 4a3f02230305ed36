import Ti3.Library.Stdio

namespace Ti3.Filters.Cat

open Library.CString Library.CMemory Library.Interaction Library.Rules Library.Determinism
open Library.Stdio

def bufsize : Nat := 4096
def inputError : Nat := 1
def outputError : Nat := 2
def argError : Nat := 3

/-- What has been read up to the end of a line, or as far as there is room, is
printed as a string. -/
def catStep (buffer : Buffer bufsize) : Process (Buffer bufsize ⊕ Unit) := do
  match ← fgets bufsize with
  | none => return .inr ()
  | some chunk =>
    let buffer := buffer.fill (chunk ++ [0])
    if (← fputs (← access (buffer.string (.inside 0)))) = eof then
      err outputError (ascii "Error in writing to stdout")
    else return .inl buffer

/-- Reads characters from the stream and prints them until its end. -/
def cat : Process Unit := do
  let buffer ← array bufsize
  .loop catStep buffer fun _ => do
    if ← ferror then err inputError (ascii "Error while reading")

def fileStep : List Bytes → Process (List Bytes ⊕ Unit)
  | [] => return .inr ()
  | path :: paths => do
    if ← fopen path then
      cat
      if (← fclose) = eof then err inputError (ascii "Error in closing file " ++ path)
      else return .inl paths
    else err argError (ascii "Can't open " ++ path ++ ascii " for reading")

/-- Without an argument the standard input is read. -/
def main (argv : List Bytes) : Process Unit :=
  match argv with
  | [_] => cat
  | argv => .loop fileStep argv.tail .done

/-- The contents that the program is to print. -/
def Inputs (disk : Disk) (w : World) (argv : List Bytes) (inputs : List Bytes) : Prop :=
  match argv with
  | [_] => inputs = [w.rest]
  | argv => List.Forall₂ (fun path s => disk.file path = some s) argv.tail inputs

/-- What is printed of a text: everything, or less if there is a zero in it. -/
def Shown (s t : Bytes) : Prop := (0 ∉ s ∧ t = s) ∨ (0 ∈ s ∧ t.length < s.length)

variable {disk : Disk} {w : World} {s s' t t' : Bytes} {argv inputs : List Bytes}

theorem shown_nil : Shown [] [] := .inl ⟨List.not_mem_nil, rfl⟩

theorem shown_length (h : Shown s t) : t.length ≤ s.length := by
  obtain ⟨-, rfl⟩ | ⟨-, h⟩ := h
  · exact Nat.le_refl _
  · exact Nat.le_of_lt h

theorem shown_append (h : Shown s t) (h' : Shown s' t') : Shown (s ++ s') (t ++ t') := by
  have hle := shown_length h
  have hle' := shown_length h'
  obtain ⟨h₀, rfl⟩ | ⟨h₀, hlt⟩ := h
  · obtain ⟨h₀', rfl⟩ | ⟨h₀', hlt'⟩ := h'
    · exact .inl ⟨List.not_mem_append h₀ h₀', rfl⟩
    · refine .inr ⟨List.mem_append_right _ h₀', ?_⟩
      rw [List.length_append, List.length_append]
      omega
  · refine .inr ⟨List.mem_append_left _ h₀, ?_⟩
    rw [List.length_append, List.length_append]
    omega

theorem shown_iff (h : Shown s t) : t = s ↔ 0 ∉ s := by
  obtain ⟨h₀, rfl⟩ | ⟨h₀, hlt⟩ := h
  · exact iff_of_true rfl h₀
  · refine iff_of_false ?_ (not_not.mpr h₀)
    rintro rfl
    exact Nat.lt_irrefl _ hlt

/-- A string ends at its first zero. -/
theorem shown_string (s : Bytes) : Shown s (s.takeWhile (· ≠ 0)) := by
  by_cases h₀ : 0 ∈ s
  · obtain ⟨u, v, rfl, hu⟩ := List.eq_append_cons_of_mem h₀
    refine .inr ⟨h₀, ?_⟩
    rw [takeWhile_string hu, List.length_append, List.length_cons]
    omega
  · exact .inl ⟨h₀, takeWhile_whole h₀⟩

def World.print (w : World) (rest t : Bytes) : World := { w with rest := rest, out := w.out ++ t }

/-- One chunk is printed as the string it starts with. -/
theorem catStep_prints (disk : Disk) {chunk rest : Bytes} (buffer : Buffer bufsize)
    (hchunk : lineWithin (bufsize - 1) w.rest = chunk) (hne : chunk ≠ [])
    (hw : w.rest = chunk ++ rest) :
    Runs (handled (perform disk)) (catStep buffer) w
      (.returned (.inl (buffer.fill (chunk ++ [0]))))
      (World.print w rest (chunk.takeWhile (· ≠ 0))) := by
  have hlen : chunk.length < bufsize := by
    have hl := length_lineWithin (bufsize - 1) w.rest
    rw [hchunk] at hl
    exact Nat.lt_of_le_of_lt hl (by decide)
  simp only [catStep, fgets, library, ask_bind]
  apply runs_call (fgets_line hchunk hne hw)
  simp only [string_fill buffer hlen, access, Program.pure_eq, Program.done_bind]
  exact runs_call rfl runs_done

/-- The chunks of a text come one after the other. -/
theorem catStep_iterates (disk : Disk) (buffer : Buffer bufsize) (hw : w.rest = s) :
    ∃ t, Shown s t ∧ Iterates (fun b => Runs (handled (perform disk)) (catStep b)) buffer w
      (.returned ()) (World.print w [] t) := by
  induction hn : s.length using Nat.strongRecOn generalizing s w buffer with
  | _ n ih =>
    by_cases hs : s = []
    · subst hs
      refine ⟨[], shown_nil, .stop ?_⟩
      have hend : World.print w [] [] = w := by
        rw [World.print, List.append_nil, ← hw]
      rw [hend]
      exact runs_call (fgets_end hw) runs_done
    · obtain ⟨chunk, rest, hchunk, hne, hsplit⟩ :=
        exists_lineWithin (k := bufsize - 1) (by decide) hs
      have hpos := List.length_pos_iff.mpr hne
      have hlt : rest.length < n := by
        rw [← hn, hsplit, List.length_append]
        omega
      have hstep := catStep_prints disk (w := w) buffer (hw ▸ hchunk) hne (hw ▸ hsplit)
      obtain ⟨t, ht, hloop⟩ := ih _ hlt (s := rest)
        (w := World.print w rest (chunk.takeWhile (· ≠ 0))) (buffer.fill (chunk ++ [0])) rfl rfl
      refine ⟨chunk.takeWhile (· ≠ 0) ++ t, ?_, .next hstep ?_⟩
      · rw [hsplit]
        exact shown_append (shown_string chunk) ht
      · rw [World.print, World.print, List.append_assoc] at hloop
        exact hloop

theorem cat_runs (disk : Disk) (hw : w.rest = s) : ∃ t, Shown s t ∧
    Runs (handled (perform disk)) cat w (.returned ()) (World.print w [] t) := by
  obtain ⟨t, ht, hloop⟩ := catStep_iterates disk (disk.array bufsize) hw
  exact ⟨t, ht, runs_call rfl (.next hloop (runs_call rfl runs_done))⟩

theorem fileStep_runs {path : Bytes} (paths : List Bytes) (hs : disk.file path = some s) :
    ∃ t, Shown s t ∧ Runs (handled (perform disk)) (fileStep (path :: paths)) w
      (.returned (.inl paths)) (World.print w [] t) := by
  have hopen : perform disk w (.fopen path) = (true, { w with rest := s }) := by
    simp only [perform, hs]
  obtain ⟨t, ht, hcat⟩ := cat_runs disk (w := { w with rest := s }) rfl
  have hclose : Runs (handled (perform disk)) (do
      if (← fclose) = eof then err inputError (ascii "Error in closing file " ++ path)
      else return .inl paths) (World.print w [] t)
      (.returned (.inl paths : List Bytes ⊕ Unit)) (World.print w [] t) := runs_call rfl runs_done
  refine ⟨t, ht, ?_⟩
  simp only [fileStep, fopen, library, ask_bind]
  apply runs_call hopen
  rw [if_pos rfl]
  exact runs_next hcat hclose

theorem files_runs {paths : List Bytes}
    (h : List.Forall₂ (fun path s => disk.file path = some s) paths inputs) :
    ∃ t w', Shown inputs.flatten t ∧ w'.out = w.out ++ t ∧
      Runs (handled (perform disk)) (.loop fileStep paths .done) w (.returned ()) w' := by
  induction h generalizing w with
  | nil => exact ⟨[], w, shown_nil, (List.append_nil _).symm, loop_stop runs_done runs_done⟩
  | @cons path s paths inputs hs _ ih =>
    obtain ⟨t, ht, hstep⟩ := fileStep_runs (w := w) paths hs
    obtain ⟨t', w', ht', hw', hrest⟩ := ih (w := World.print w [] t)
    refine ⟨t ++ t', w', ?_, ?_, loop_next hstep hrest⟩
    · rw [List.flatten_cons]
      exact shown_append ht ht'
    · rw [hw', ← List.append_assoc]
      rfl

theorem main_runs (h : Inputs disk w argv inputs) :
    ∃ t w', Shown inputs.flatten t ∧ w'.out = w.out ++ t ∧
      Runs (handled (perform disk)) (main argv) w (.returned ()) w' := by
  match argv, h with
  | [prog], h =>
    obtain rfl : inputs = [w.rest] := h
    obtain ⟨t, ht, hr⟩ := cat_runs disk (w := w) rfl
    rw [← List.append_nil w.rest] at ht
    exact ⟨t, _, ht, rfl, hr⟩
  | [], h => exact files_runs h
  | _ :: _ :: _, h => exact files_runs h

/-- The files come out unchanged exactly when there is no zero in them. -/
theorem main_copies_iff (disk : Disk) (w : World) (argv inputs : List Bytes)
    (h : Inputs disk w argv inputs) :
    Yields (handled (perform disk)) (main argv) w (fun _ w' => w'.out = w.out ++ inputs.flatten) ↔
      ∀ s ∈ inputs, 0 ∉ s := by
  obtain ⟨t, w', ht, hw', hr⟩ := main_runs h
  have hall : (∀ s ∈ inputs, 0 ∉ s) ↔ 0 ∉ inputs.flatten := by
    simp [List.mem_flatten]
  rw [hall, ← shown_iff ht]
  constructor
  · intro hy
    have he := yields_returned hy hr
    rw [hw'] at he
    exact List.append_cancel_left he
  · rintro rfl
    exact yields_of_runs hr hw'

/-- A file with a zero byte, and one without. -/
def twoFiles : Disk where
  file path := if path = ascii "a" then some [97, 0, 98] else some (ascii "cd\n")
  array := Buffer.zeros

theorem main_copies_iff_twoFiles :
    Yields (handled (perform twoFiles)) (main [ascii "cat", ascii "b"]) ⟨[], [], []⟩
        (fun _ w' => w'.out = [] ++ [ascii "cd\n"].flatten) ↔ ∀ s ∈ [ascii "cd\n"], 0 ∉ s :=
  main_copies_iff twoFiles ⟨[], [], []⟩ [ascii "cat", ascii "b"] [ascii "cd\n"]
    (.cons rfl .nil)

/-- What stands behind a zero in a line is lost. -/
theorem twoFiles_lost : Inputs twoFiles ⟨[], [], []⟩ [ascii "cat", ascii "a"] [[97, 0, 98]] ∧
    ¬ Yields (handled (perform twoFiles)) (main [ascii "cat", ascii "a"]) ⟨[], [], []⟩
        (fun _ w' => w'.out = [] ++ [[97, 0, 98]].flatten) := by
  have hin : Inputs twoFiles ⟨[], [], []⟩ [ascii "cat", ascii "a"] [[97, 0, 98]] := .cons rfl .nil
  refine ⟨hin, fun hy => ?_⟩
  obtain ⟨t, w', ht, hw', hr⟩ := main_runs hin
  have he := (yields_returned hy hr).symm.trans hw'
  have h₀ := (shown_iff ht).mp (List.append_cancel_left he).symm
  exact h₀ (by decide)

end Ti3.Filters.Cat
