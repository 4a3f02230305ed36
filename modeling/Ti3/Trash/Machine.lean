import Ti3.Trash.Copies

namespace Ti3.Trash.Machine

open Library.CString Library.Interaction Library.Rules Library.Determinism
open Trashcan Directories Paths Copies

variable {Dir : Type}

/-- The contents of the current directory and of the trash by name. -/
structure Store where
  cwd : Bytes → Option Bytes
  trash : Bytes → Option Bytes

inductive Command where
  | put (name : Bytes)
  | get (name : Bytes)
  | remove (name : Bytes)
  deriving DecidableEq

def Command.name : Command → Bytes
  | put n | get n | remove n => n

def Command.argv (prog : Bytes) : Command → List Bytes
  | put n => [prog, ascii "-p", n]
  | get n => [prog, ascii "-g", n]
  | remove n => [prog, ascii "-r", n]

/-- The trash as a machine: what a command does, if it can be done. -/
def Store.apply (s : Store) : Command → Option Store
  | .put n => match s.cwd n, s.trash n with
    | some d, none => some ⟨Function.update s.cwd n none, Function.update s.trash n (some d)⟩
    | _, _ => none
  | .get n => match s.trash n, s.cwd n with
    | some d, none => some ⟨Function.update s.cwd n (some d), Function.update s.trash n none⟩
    | _, _ => none
  | .remove n => match s.trash n with
    | some _ => some ⟨s.cwd, Function.update s.trash n none⟩
    | none => none

/-- A command that cannot be done ends with an error and changes nothing. -/
def Ends (s : Store) (c : Command) (o : Outcome Exit Unit) (s' : Store) : Prop :=
  match s.apply c with
  | some t => o = .returned () ∧ s' = t
  | none => (∃ code message, o = .halted (.status code message) ∧ code ≠ 0) ∧ s' = s

inductive Behaves : Store → List Command → List (Outcome Exit Unit) → Store → Prop
  | stop {s} : Behaves s [] [] s
  | command {s t s' c cs o os} : Ends s c o t → Behaves t cs os s' →
      Behaves s (c :: cs) (o :: os) s'

def contents (sys : System Dir) (home : Bytes) (w : World Dir) : Store where
  cwd n := (w.files (sys.dirAt [], n)).map File.data
  trash n := (w.files (sys.dirAt (trashPath home []), n)).map File.data

/-- Names of files in a directory. -/
def Plain (name : Bytes) : Prop := slash ∉ name ∧ 0 ∉ name ∧ Proper name

instance (name : Bytes) : Decidable (Plain name) :=
  inferInstanceAs (Decidable (_ ∧ _ ∧ _))

/-- `HOME` is set, and the trash is not the current directory. -/
structure Setting (sys : System Dir) (home : Bytes) : Prop where
  set : sys.home = some home
  text : 0 ∉ home
  apart : sys.dirAt [] ≠ sys.dirAt (trashPath home [])

variable [DecidableEq Dir]

/-- The tool is run to its end once for every command. -/
inductive Session (sys : System Dir) (prog : Bytes) :
    World Dir → List Command → List (Outcome Exit Unit) → World Dir → Prop
  | stop {w} : Session sys prog w [] [] w
  | command {w w₁ w' c cs o os} : Runs (handled (perform sys)) (main (c.argv prog)) w o w₁ →
      o ≠ .cut → Session sys prog w₁.exit cs os w' → Session sys prog w (c :: cs) (o :: os) w'

variable {sys : System Dir} {w : World Dir} {home prog n : Bytes}

/-- A command leaves the current directory in place, and ends as the machine
does. -/
def Simulates (sys : System Dir) (home : Bytes) (w : World Dir) (c : Command) (p : Process Unit) :
    Prop :=
  ∃ o w', Runs (handled (perform sys)) p w o w' ∧ o ≠ .cut ∧ w'.dirs (sys.dirAt []) = true ∧
    Ends (contents sys home w) c o (contents sys home w')

theorem optMktrashdir_runs (hs : Setting sys home) : ∃ w',
    Runs (handled (perform sys)) optMktrashdir w (.returned ()) w' ∧ w'.files = w.files ∧
      w'.dirs (sys.dirAt (trashPath home [])) = true ∧
        ∀ d, w.dirs d = true → w'.dirs d = true := by
  have hname : Runs (handled (perform sys)) (trashname []) w (.returned (trashPath home [])) w :=
    trashname_runs hs.set hs.text List.not_mem_nil
  cases hd : w.dirs (sys.dirAt (trashPath home [])) with
  | true =>
    have hmkdir : perform sys w (.mkdir (trashPath home []) trashdirmode) =
        (.error .eexist, w) := by
      simp only [perform, hd, if_true]
    exact ⟨w, runs_next hname (runs_call hmkdir runs_done), rfl, hd, fun _ h => h⟩
  | false =>
    have hmkdir : perform sys w (.mkdir (trashPath home []) trashdirmode) = (.ok (), { w with
        dirs := Function.update w.dirs (sys.dirAt (trashPath home [])) true }) := by
      simp [perform, hd]
    refine ⟨_, runs_next hname (runs_call hmkdir runs_done), rfl, Function.update_self .., ?_⟩
    intro d h
    by_cases he : d = sys.dirAt (trashPath home [])
    · rw [he]
      exact Function.update_self ..
    · exact (Function.update_of_ne he ..).trans h

omit [DecidableEq Dir] in
theorem contents_congr {w' : World Dir} (h : w'.files = w.files) :
    contents sys home w' = contents sys home w := by
  simp only [contents, h]

theorem contents_cwd (hs : Setting sys home) (o : Option File) :
    contents sys home (w.setFile (sys.dirAt [], n) o) =
      { contents sys home w with
        cwd := Function.update (contents sys home w).cwd n (o.map File.data) } := by
  have hcwd (m : Bytes) : ((w.setFile (sys.dirAt [], n) o).files (sys.dirAt [], m)).map File.data =
      Function.update (contents sys home w).cwd n (o.map File.data) m := by
    by_cases hm : m = n
    · rw [hm, setFile_same, Function.update_self]
    · rw [setFile_other (by simpa using hm), Function.update_of_ne hm]
      rfl
  have htrash (m : Bytes) :
      (w.setFile (sys.dirAt [], n) o).files (sys.dirAt (trashPath home []), m) =
        w.files (sys.dirAt (trashPath home []), m) :=
    setFile_other (fun he => hs.apart (Prod.mk.inj he).1.symm)
  simp only [contents, htrash, hcwd]

theorem contents_trash (hs : Setting sys home) (o : Option File) :
    contents sys home (w.setFile (sys.dirAt (trashPath home []), n) o) =
      { contents sys home w with
        trash := Function.update (contents sys home w).trash n (o.map File.data) } := by
  have htrash (m : Bytes) : ((w.setFile (sys.dirAt (trashPath home []), n) o).files
      (sys.dirAt (trashPath home []), m)).map File.data =
        Function.update (contents sys home w).trash n (o.map File.data) m := by
    by_cases hm : m = n
    · rw [hm, setFile_same, Function.update_self]
    · rw [setFile_other (by simpa using hm), Function.update_of_ne hm]
      rfl
  have hcwd (m : Bytes) :
      (w.setFile (sys.dirAt (trashPath home []), n) o).files (sys.dirAt [], m) =
        w.files (sys.dirAt [], m) :=
    setFile_other (fun he => hs.apart (Prod.mk.inj he).1)
  simp only [contents, htrash, hcwd]

/-- What a move comes to: the file goes from one place to the other if it is
there and the other place is free. -/
theorem transfer_runs (sys : System Dir) (w : World Dir)
    (infile outfile uncopied unremoved : Bytes)
    (hdir : w.dirs (sys.place outfile).1) (hproper : Proper (sys.place outfile).2) : ∃ o w',
    Runs (handled (perform sys)) (transfer infile outfile uncopied unremoved) w o w' ∧
      w'.dirs = w.dirs ∧
      match w.files (sys.place infile), w.files (sys.place outfile) with
      | some f, none => o = .returned () ∧ w'.files = ((w.setFile (sys.place outfile)
          (some ⟨f.data, copyMode sys f⟩)).setFile (sys.place infile) none).files
      | _, _ => o = .halted (.status 2 uncopied) ∧ w'.files = w.files := by
  cases hf : w.files (sys.place infile) with
  | none => exact ⟨_, w, runs_next (filecopy_missing hf) runs_halt, rfl, rfl, rfl⟩
  | some f =>
    cases hg : w.files (sys.place outfile) with
    | some g =>
      obtain ⟨w', hr, hfiles, hdirs⟩ : ∃ w', Runs (handled (perform sys)) _ _ _ w' ∧ _ :=
        filecopy_taken hf hg
      exact ⟨_, w', runs_next hr runs_halt, hdirs, rfl, hfiles⟩
    | none =>
      obtain ⟨w', hr, hfiles, hdirs⟩ := filecopy_copies hf hg hdir hproper
      have hapart : sys.place infile ≠ sys.place outfile := by
        intro he
        rw [he, hg] at hf
        cases hf
      have hunlink : perform sys w' (.unlink infile) =
          (0, w'.setFile (sys.place infile) none) := by
        have hsrc : w'.files (sys.place infile) = some f := by
          rw [hfiles, Function.update_of_ne hapart, hf]
        simp only [perform, hsrc]
      refine ⟨.returned (), w'.setFile (sys.place infile) none,
        runs_next hr (runs_call hunlink runs_done), hdirs, rfl, ?_⟩
      simp only [World.setFile, hfiles]

/-- The command cannot be done, and no file has changed. -/
theorem simulates_error {c : Command} {p : Process Unit} {code : Nat} {message : Bytes}
    {w' : World Dir} (hrun : Runs (handled (perform sys)) p w (.halted (.status code message)) w')
    (hcwd : w'.dirs (sys.dirAt []) = true) (hw' : w'.files = w.files) (hcode : code ≠ 0)
    (ha : (contents sys home w).apply c = none) : Simulates sys home w c p := by
  refine ⟨_, w', hrun, nofun, hcwd, ?_⟩
  rw [contents_congr hw', Ends, ha]
  exact ⟨⟨code, message, rfl, hcode⟩, rfl⟩

/-- The command is done as the machine does it. -/
theorem simulates_done {c : Command} {p : Process Unit} {t : Store} {w' : World Dir}
    (hrun : Runs (handled (perform sys)) p w (.returned ()) w')
    (hcwd : w'.dirs (sys.dirAt []) = true) (ht : contents sys home w' = t)
    (ha : (contents sys home w).apply c = some t) : Simulates sys home w c p := by
  refine ⟨_, w', hrun, nofun, hcwd, ?_⟩
  rw [Ends, ha]
  exact ⟨rfl, ht⟩

theorem put_simulates (hs : Setting sys home) (hn : Plain n)
    (hw : w.dirs (sys.dirAt []) = true) : Simulates sys home w (.put n) (moveToTrash n) := by
  obtain ⟨w₁, hmkdir, hfiles, hdir, hdirs⟩ := optMktrashdir_runs (w := w) hs
  have hname : Runs (handled (perform sys)) (trashname n) w₁ (.returned (trashPath home n)) w₁ :=
    trashname_runs hs.set hs.text hn.2.1
  have hto : sys.place (trashPath home n) = (sys.dirAt (trashPath home []), n) := place_trash hn.1
  obtain ⟨o, w', hr, hd, hc⟩ := transfer_runs sys w₁ n (trashPath home n)
    (ascii "Error copying " ++ n ++ ascii " to " ++ trashPath home n ++ ascii ".")
    (ascii "Cannot remove source file " ++ n ++ ascii ".")
    (by rw [hto]; exact hdir) (by rw [hto]; exact hn.2.2)
  have hrun : Runs (handled (perform sys)) (moveToTrash n) w o w' :=
    runs_next hmkdir (runs_next hname hr)
  have hcwd : w'.dirs (sys.dirAt []) = true := hd ▸ hdirs _ hw
  rw [hto, place_plain hn.1, hfiles] at hc
  cases hC : w.files (sys.dirAt [], n) with
  | none =>
    rw [hC] at hc
    obtain ⟨rfl, hw'⟩ := hc
    exact simulates_error hrun hcwd hw' (by decide) (by simp [Store.apply, contents, hC])
  | some f =>
    cases hT : w.files (sys.dirAt (trashPath home []), n) with
    | some g =>
      rw [hC, hT] at hc
      obtain ⟨rfl, hw'⟩ := hc
      exact simulates_error hrun hcwd hw' (by decide) (by simp [Store.apply, contents, hC, hT])
    | none =>
      rw [hC, hT] at hc
      obtain ⟨rfl, hw'⟩ := hc
      have hend : contents sys home w' = _ := contents_congr hw'
      rw [contents_cwd hs, contents_trash hs, contents_congr hfiles] at hend
      exact simulates_done hrun hcwd hend (by simp [Store.apply, contents, hC, hT])

theorem get_simulates (hs : Setting sys home) (hn : Plain n)
    (hw : w.dirs (sys.dirAt []) = true) : Simulates sys home w (.get n) (recoverFromTrash n) := by
  have hname : Runs (handled (perform sys)) (trashname n) w (.returned (trashPath home n)) w :=
    trashname_runs hs.set hs.text hn.2.1
  have hto : sys.place n = (sys.dirAt [], n) := place_plain hn.1
  obtain ⟨o, w', hr, hd, hc⟩ := transfer_runs sys w (trashPath home n) n
    (ascii "Error copying " ++ n ++ ascii " to current directory.")
    (ascii "Cannot remove file " ++ trashPath home n ++ ascii " from trash.")
    (by rw [hto]; exact hw) (by rw [hto]; exact hn.2.2)
  have hrun : Runs (handled (perform sys)) (recoverFromTrash n) w o w' := runs_next hname hr
  have hcwd : w'.dirs (sys.dirAt []) = true := hd ▸ hw
  rw [hto, place_trash hn.1] at hc
  cases hT : w.files (sys.dirAt (trashPath home []), n) with
  | none =>
    rw [hT] at hc
    obtain ⟨rfl, hw'⟩ := hc
    exact simulates_error hrun hcwd hw' (by decide) (by simp [Store.apply, contents, hT])
  | some f =>
    cases hC : w.files (sys.dirAt [], n) with
    | some g =>
      rw [hC, hT] at hc
      obtain ⟨rfl, hw'⟩ := hc
      exact simulates_error hrun hcwd hw' (by decide) (by simp [Store.apply, contents, hC, hT])
    | none =>
      rw [hC, hT] at hc
      obtain ⟨rfl, hw'⟩ := hc
      have hend : contents sys home w' = _ := contents_congr hw'
      rw [contents_trash hs, contents_cwd hs] at hend
      exact simulates_done hrun hcwd hend (by simp [Store.apply, contents, hC, hT])

theorem remove_simulates (hs : Setting sys home) (hn : Plain n)
    (hw : w.dirs (sys.dirAt []) = true) :
    Simulates sys home w (.remove n) (finallyDelete n) := by
  have hname : Runs (handled (perform sys)) (trashname n) w (.returned (trashPath home n)) w :=
    trashname_runs hs.set hs.text hn.2.1
  have hto : sys.place (trashPath home n) = (sys.dirAt (trashPath home []), n) := place_trash hn.1
  cases hT : w.files (sys.dirAt (trashPath home []), n) with
  | none =>
    have hunlink : perform sys w (.unlink (trashPath home n)) = (-1, w) := by
      simp only [perform, hto, hT]
    exact simulates_error (runs_next hname (runs_call hunlink runs_halt)) hw rfl (by decide)
      (by simp [Store.apply, contents, hT])
  | some f =>
    have hunlink : perform sys w (.unlink (trashPath home n)) =
        (0, w.setFile (sys.dirAt (trashPath home []), n) none) := by
      simp only [perform, hto, hT]
    exact simulates_done (runs_next hname (runs_call hunlink runs_done)) hw (contents_trash hs none)
      (by simp [Store.apply, contents, hT])

/-- The first letter behind the dash decides. -/
theorem main_put : main ((Command.put n).argv prog) = moveToTrash n := by
  simp [main, Command.argv, ascii, access]

theorem main_get : main ((Command.get n).argv prog) = recoverFromTrash n := by
  simp [main, Command.argv, ascii, access]

theorem main_remove : main ((Command.remove n).argv prog) = finallyDelete n := by
  simp [main, Command.argv, ascii, access]

theorem main_simulates (prog : Bytes) (hs : Setting sys home) {c : Command} (hc : Plain c.name)
    (hw : w.dirs (sys.dirAt []) = true) : Simulates sys home w c (main (c.argv prog)) := by
  cases c with
  | put n =>
    rw [main_put]
    exact put_simulates hs hc hw
  | get n =>
    rw [main_get]
    exact get_simulates hs hc hw
  | remove n =>
    rw [main_remove]
    exact remove_simulates hs hc hw

theorem session_exists (hs : Setting sys home) {cs : List Command} (hc : ∀ c ∈ cs, Plain c.name)
    (hw : w.dirs (sys.dirAt []) = true) : ∃ os w', Session sys prog w cs os w' := by
  induction cs generalizing w with
  | nil => exact ⟨[], w, .stop⟩
  | cons c cs ih =>
    obtain ⟨hplain, hc⟩ := List.forall_mem_cons.mp hc
    obtain ⟨o, w₁, hr, ho, hd, _⟩ := main_simulates prog hs hplain hw
    obtain ⟨os, w', hsession⟩ := ih (w := w₁.exit) hc hd
    exact ⟨o :: os, w', .command hr ho hsession⟩

theorem session_behaves (hs : Setting sys home) {cs : List Command} {w' : World Dir}
    {os : List (Outcome Exit Unit)} (hc : ∀ c ∈ cs, Plain c.name)
    (hw : w.dirs (sys.dirAt []) = true) (h : Session sys prog w cs os w') :
    Behaves (contents sys home w) cs os (contents sys home w') := by
  induction h with
  | stop => exact .stop
  | command hr ho _ ih =>
    obtain ⟨hplain, hc⟩ := List.forall_mem_cons.mp hc
    obtain ⟨o, w₁, hr', ho', hd, he⟩ := main_simulates prog hs hplain hw
    obtain ⟨rfl, rfl⟩ := runs_deterministic (perform sys) _ hr hr' ho ho'
    exact .command he (ih hc hd)

/-- The contents that go by a name are where they were or have changed places. -/
def Store.Swaps (s s' : Store) (n : Bytes) : Prop :=
  (s'.cwd n = s.cwd n ∧ s'.trash n = s.trash n) ∨ (s'.cwd n = s.trash n ∧ s'.trash n = s.cwd n)

theorem swaps_trans {s t s' : Store} (h : s.Swaps t n) (h' : t.Swaps s' n) : s.Swaps s' n := by
  obtain ⟨h₁, h₂⟩ | ⟨h₁, h₂⟩ := h <;> obtain ⟨h₃, h₄⟩ | ⟨h₃, h₄⟩ := h'
  · exact .inl ⟨h₃.trans h₁, h₄.trans h₂⟩
  · exact .inr ⟨h₃.trans h₂, h₄.trans h₁⟩
  · exact .inr ⟨h₃.trans h₁, h₄.trans h₂⟩
  · exact .inl ⟨h₃.trans h₂, h₄.trans h₁⟩

theorem apply_swaps {s t : Store} {c : Command} (hn : c ≠ .remove n) (h : s.apply c = some t) :
    s.Swaps t n := by
  by_cases he : c.name = n
  · cases c with
    | put m | get m =>
      obtain rfl : m = n := he
      simp only [Store.apply] at h
      split at h
      · next h₁ h₂ =>
        cases h
        exact .inr ⟨by simp [h₁, h₂], by simp [h₁, h₂]⟩
      · cases h
    | remove m => exact absurd (congrArg Command.remove he) hn
  · have hne : n ≠ c.name := fun h => he h.symm
    cases c with
    | put m | get m =>
      simp only [Store.apply] at h
      split at h
      · cases h
        exact .inl ⟨Function.update_of_ne hne .., Function.update_of_ne hne ..⟩
      · cases h
    | remove m =>
      simp only [Store.apply] at h
      split at h
      · cases h
        exact .inl ⟨rfl, Function.update_of_ne hne ..⟩
      · cases h

end Ti3.Trash.Machine
