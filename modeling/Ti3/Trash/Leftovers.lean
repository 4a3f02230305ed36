import Ti3.Trash.NoLoss

namespace Ti3.Trash.Leftovers

open Library.CString Library.Interaction Library.Rules
open Trashcan Directories Paths NoLoss

variable {Dir : Type}

variable {sys : System Dir} {w w₁ w' : World Dir} {infile outfile filename : Bytes}

variable [DecidableEq Dir] {mode : BitVec 12} {inFd outFd : Nat}

/-- A directory can be opened, and then nothing can be read from it. -/
theorem copyDirectory_fails (hin : w₁.fds inFd = some .directory) :
    Guarantees (unreliable sys) (.loop (copyStep inFd outFd) () fun complete =>
      if complete then closeBoth inFd outFd else .done 3) w₁
      (fun o w' => w' = w₁ ∧ o ≠ .returned 0) := by
  refine guarantees_loop (fun _ w₂ => w₂ = w₁) rfl (fun _ w₂ hw₂ => ?_)
  subst hw₂
  simp only [copyStep, Trashcan.read, library, ask_bind]
  refine guarantees_call.mpr ⟨⟨rfl, by rintro ⟨⟩⟩, fun a w₃ ha => ?_⟩
  obtain ⟨rfl, rfl⟩ | ⟨p, pos, f, bytes, hb, _⟩ := ha
  · refine guarantees_done.mpr ⟨⟨rfl, by rintro ⟨⟩⟩, ?_⟩
    exact guarantees_done.mpr ⟨⟨rfl, by rintro ⟨⟩⟩, rfl, by rintro ⟨⟩⟩
  · simp only [World.behind, hin] at hb
    cases hb

/-- What is left behind blocks its name: while it is there, no later attempt
comes to its end. -/
theorem retry_blocked (hh : ∀ home, sys.home = some home → 0 ∉ home) (h₁ : 0 ∉ filename)
    (hleft : w.files (sys.place (trashed sys filename)) ≠ none) :
    Guarantees (unreliable sys) (moveToTrash filename) w
      (fun o w' => w'.files = w.files ∧ o ≠ .returned ()) := by
  refine moveToTrash_transfers hh h₁ (fun _ _ hw ho => ⟨hw, ho⟩) (fun w₁ _ _ hw₁ => ?_)
  have hblocked : w₁.files (sys.place (trashed sys filename)) ≠ none := hw₁ ▸ hleft
  exact guarantees_mono (transfer_blocked (.inr (.inr hblocked)))
    (fun _ _ ⟨hw, ho⟩ => ⟨hw.trans hw₁, ho⟩)

/-- Both files of a copy are open, and nothing has been copied. -/
def opened (sys : System Dir) (w : World Dir) (infile outfile : Bytes) (f : File) : World Dir :=
  (create sys (w.setFd 3 (some (.file (sys.place infile) 0))) (sys.place outfile)
    (regular f.mode)).setFd 4 (some (.file (sys.place outfile) 0))

/-- A copy comes to its loop when the source is there and the target is not. -/
theorem filecopy_enters {f : File} {o : Outcome Exit Nat} (hne : infile ≠ [])
    (hf : w.files (sys.place infile) = some f) (hfresh : w.files (sys.place outfile) = none)
    (hproper : Proper (sys.place outfile).2) (hfds : ∀ fd, w.fds fd = none)
    (h : Runs (unreliable sys) (.loop (copyStep 3 4) () fun complete =>
      if complete then closeBoth 3 4 else .done 3) (opened sys w infile outfile f) o w') :
    Runs (unreliable sys) (filecopy infile outfile) w o w' := by
  let w₁ := w.setFd 3 (some (.file (sys.place infile) 0))
  have hsome : w.files (sys.place infile) ≠ none := by
    rw [hf]
    nofun
  have hopen : unreliable sys w (.open infile .rdonly 0) (some 3) w₁ :=
    .inr ⟨3, rfl, hne, hfds 3, .inl ⟨hsome, rfl⟩⟩
  have hfstat : unreliable sys w₁ (.fstat 3) (some (regular f.mode)) w₁ := by
    refine ⟨rfl, fun b hb => .inr ?_⟩
    rw [behind_file setFd_same (show w₁.files (sys.place infile) = some f from hf)] at hb
    cases hb
    rfl
  have hfree : w₁.fds 4 = none := (setFd_other (by decide)).trans (hfds 4)
  have hcreate : unreliable sys w₁ (.open outfile .createExcl (regular f.mode)) (some 4)
      (opened sys w infile outfile f) := .inr ⟨4, rfl, hfree, hfresh, hproper, rfl⟩
  exact runs_call hopen (runs_call hfstat (runs_call hcreate h))

/-- The trash directory is made, and then the file is transferred to it. -/
theorem moveToTrash_enters {home : Bytes} {o : Outcome Exit Unit} (hhome : sys.home = some home)
    (h₀ : 0 ∉ home) (h₁ : 0 ∉ filename)
    (h : Runs (unreliable sys) (transfer filename (trashPath home filename)
        (ascii "Error copying " ++ filename ++ ascii " to " ++ trashPath home filename ++ ascii ".")
        (ascii "Cannot remove source file " ++ filename ++ ascii "."))
      { w with dirs := Function.update w.dirs (sys.dirAt (trashPath home [])) true } o w') :
    Runs (unreliable sys) (moveToTrash filename) w o w' := by
  have hname {name : Bytes} {w : World Dir} (hn : 0 ∉ name) : Runs (unreliable sys)
      (trashname name) w (.returned (trashPath home name)) w :=
    trashname_answers ⟨rfl, fun _ => hhome.symm⟩ (fun n => ⟨sys.array n, rfl⟩) h₀ hn
  have hmkdir : unreliable sys w (.mkdir (trashPath home []) trashdirmode) (.ok ())
      { w with dirs := Function.update w.dirs (sys.dirAt (trashPath home [])) true } :=
    .inr ⟨rfl, rfl⟩
  exact runs_next (runs_next (hname List.not_mem_nil) (runs_call hmkdir runs_done))
    (runs_next (hname h₁) h)

end Ti3.Trash.Leftovers
