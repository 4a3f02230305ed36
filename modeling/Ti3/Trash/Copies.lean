import Ti3.Trash.Paths

namespace Ti3.Trash.Copies

open Library.CString Library.CMemory Library.Interaction Library.Rules Library.Determinism
open Trashcan Directories Paths

variable {Dir : Type} [DecidableEq Dir] {sys : System Dir} {w : World Dir}
variable {home filename infile outfile : Bytes} {f : File}

theorem trashname_runs (hh : sys.home = some home) (h₀ : 0 ∉ home) (h₁ : 0 ∉ filename) :
    Runs (handled (perform sys)) (trashname filename) w
      (.returned (trashPath home filename)) w := by
  have hget : perform sys w (.getenv (ascii "HOME")) = (some home, w) := by
    simp only [perform, if_true, hh]
  exact trashname_answers hget (fun n => ⟨sys.array n, rfl⟩) h₀ h₁

/-- The files and directories after a part of a copy, and how far it has come. -/
structure Copying (w : World Dir) (src dst : Place Dir) (f : File) (mode : BitVec 12)
    (inFd outFd k : Nat) (w' : World Dir) : Prop where
  files : w'.files = Function.update w.files dst (some ⟨f.data.take k, mode⟩)
  dirs : w'.dirs = w.dirs
  input : w'.fds inFd = some (.file src k)
  output : w'.fds outFd = some (.file dst k)

section

variable {src dst : Place Dir} {mode : BitVec 12} {inFd outFd k : Nat} {w' : World Dir}

theorem Copying.source (hc : Copying w src dst f mode inFd outFd k w') (hf : w.files src = some f)
    (hsd : src ≠ dst) : w'.files src = some f := by
  rw [hc.files, Function.update_of_ne hsd, hf]

theorem Copying.target (hc : Copying w src dst f mode inFd outFd k w') :
    w'.files dst = some ⟨f.data.take k, mode⟩ := by
  rw [hc.files, Function.update_self]

/-- What is stored behind a part of a copy is the next part. -/
theorem Copying.stored {bytes : Bytes} {n : Nat} (hc : Copying w src dst f mode inFd outFd k w')
    (hp : bytes <+: f.data.drop k) :
    (store (advance w' inFd src n) outFd dst k ⟨f.data.take k, mode⟩ bytes).files =
      Function.update w.files dst (some ⟨f.data.take (k + bytes.length), mode⟩) := by
  rw [← overwrite_read hp]
  change Function.update w'.files dst _ = _
  rw [hc.files, Function.update_idem]

end

/-- How much is still to be read. -/
def remaining (f : File) (inFd : Nat) (_ : Unit) (w : World Dir) : Nat :=
  match w.fds inFd with
  | some (.file _ pos) => f.data.length - pos
  | _ => 0

theorem copyStep_runs {src dst : Place Dir} {mode : BitVec 12} {inFd outFd k : Nat}
    {w' : World Dir} (hf : w.files src = some f) (hsd : src ≠ dst) (hfds : inFd ≠ outFd)
    (hc : Copying w src dst f mode inFd outFd k w') :
    (∃ w₁, Runs (handled (perform sys)) (copyStep inFd outFd ()) w' (.returned (.inl ())) w₁ ∧
      (∃ k, Copying w src dst f mode inFd outFd k w₁) ∧
        remaining f inFd () w₁ < remaining f inFd () w') ∨
      ∃ w₁, Runs (handled (perform sys)) (copyStep inFd outFd ()) w' (.returned (.inr true)) w₁ ∧
        w₁.files = Function.update w.files dst (some ⟨f.data, mode⟩) ∧ w₁.dirs = w.dirs ∧
          (w₁.fds inFd).isSome ∧ (w₁.fds outFd).isSome := by
  have hsrc := hc.source hf hsd
  have hdst := hc.target
  have hread : perform sys w' (.read inFd buffsize) = (some ((f.data.drop k).take buffsize),
      advance w' inFd src (k + ((f.data.drop k).take buffsize).length)) := by
    simp only [perform, behind_file hc.input hsrc]
  simp only [copyStep, Trashcan.read, Trashcan.write, library, ask_bind]
  cases hb : (f.data.drop k).take buffsize with
  | nil =>
    rw [hb] at hread
    have hdrop : f.data.drop k = [] :=
      (List.take_eq_nil_iff.mp hb).resolve_left (show buffsize ≠ 0 by decide)
    refine .inr ⟨_, runs_call hread runs_done, ?_, hc.dirs, by simp, ?_⟩
    · rw [advance_files, hc.files, List.take_of_length_le (List.drop_eq_nil_iff.mp hdrop)]
    · rw [advance_other (Ne.symm hfds), hc.output]
      rfl
  | cons b bs =>
    have hprefix : b :: bs <+: f.data.drop k := hb ▸ List.take_prefix _ _
    rw [hb] at hread
    have hwrite : perform sys (advance w' inFd src (k + (b :: bs).length))
        (.write outFd (b :: bs)) = (((b :: bs).length : Int),
          store (advance w' inFd src (k + (b :: bs).length)) outFd dst k ⟨f.data.take k, mode⟩
            (b :: bs)) := by
      simp only [perform, behind_file ((advance_other (Ne.symm hfds)).trans hc.output) hdst]
    have hin : (store (advance w' inFd src (k + (b :: bs).length)) outFd dst k
        ⟨f.data.take k, mode⟩ (b :: bs)).fds inFd = some (.file src (k + (b :: bs).length)) :=
      (advance_other hfds).trans advance_same
    refine .inl ⟨store (advance w' inFd src (k + (b :: bs).length)) outFd dst k
      ⟨f.data.take k, mode⟩ (b :: bs), runs_call hread ?_, ⟨k + (b :: bs).length, ?_⟩, ?_⟩
    · apply runs_call hwrite
      rw [if_pos rfl]
      exact runs_done
    · exact ⟨hc.stored hprefix, hc.dirs, hin, advance_same⟩
    · have hle := hprefix.length_le
      rw [List.length_drop] at hle
      simp only [remaining, hin, hc.input]
      simp only [List.length_cons] at hle ⊢
      omega

/-- The copy loop ends with the whole content copied. -/
theorem copyLoop_runs (sys : System Dir) {src dst : Place Dir} {mode : BitVec 12}
    {inFd outFd k : Nat} {w' : World Dir} (hf : w.files src = some f) (hsd : src ≠ dst)
    (hfds : inFd ≠ outFd)
    (hc : Copying w src dst f mode inFd outFd k w') : ∃ w₁,
    Iterates (fun u => Runs (handled (perform sys)) (copyStep inFd outFd u)) () w'
        (.returned true) w₁ ∧
      w₁.files = Function.update w.files dst (some ⟨f.data, mode⟩) ∧ w₁.dirs = w.dirs ∧
        (w₁.fds inFd).isSome ∧ (w₁.fds outFd).isSome := by
  have hround (u : Unit) (w' : World Dir) (h : ∃ k, Copying w src dst f mode inFd outFd k w') :
      (∃ u' w₁, Runs (handled (perform sys)) (copyStep inFd outFd u) w' (.returned (.inl u')) w₁ ∧
          (∃ k, Copying w src dst f mode inFd outFd k w₁) ∧
            remaining f inFd u' w₁ < remaining f inFd u w') ∨
        ∃ complete w₁, Runs (handled (perform sys)) (copyStep inFd outFd u) w'
          (.returned (.inr complete)) w₁ ∧ complete = true ∧
            w₁.files = Function.update w.files dst (some ⟨f.data, mode⟩) ∧ w₁.dirs = w.dirs ∧
              (w₁.fds inFd).isSome ∧ (w₁.fds outFd).isSome := by
    obtain ⟨k, hc⟩ := h
    obtain ⟨w₁, hr, hc, hlt⟩ | ⟨w₁, hr, hq⟩ := copyStep_runs hf hsd hfds hc
    · exact .inl ⟨(), w₁, hr, hc, hlt⟩
    · exact .inr ⟨true, w₁, hr, rfl, hq⟩
  obtain ⟨complete, w₁, hloop, rfl, hq⟩ := iterates_total (remaining f inFd) hround ⟨k, hc⟩
  exact ⟨w₁, hloop, hq⟩

theorem filecopy_missing (hf : w.files (sys.place infile) = none) :
    Runs (handled (perform sys)) (filecopy infile outfile) w (.returned 1) w := by
  have hopen : perform sys w (.open infile .rdonly 0) = (none, w) := by
    simp only [perform, hf]
  exact runs_call hopen runs_done

/-- The permission bits of a copy. -/
def copyMode (sys : System Dir) (f : File) : BitVec 12 :=
  (regular f.mode).setWidth 12 &&& ~~~sys.umask

theorem open_source (hf : w.files (sys.place infile) = some f) :
    perform sys w (.open infile .rdonly 0) =
      (some w.opened, w.openFd (.file (sys.place infile) 0)) := by
  simp only [perform, hf]

theorem fstat_source (hf : w.files (sys.place infile) = some f) :
    perform sys (w.openFd (.file (sys.place infile) 0)) (.fstat w.opened) =
      (some (regular f.mode), w.openFd (.file (sys.place infile) 0)) := by
  have hb : (w.openFd (.file (sys.place infile) 0)).behind w.opened =
      some (sys.place infile, 0, f) := behind_file setFd_same hf
  simp only [perform, hb, Option.map_some]

theorem filecopy_taken {g : File} (hf : w.files (sys.place infile) = some f)
    (hg : w.files (sys.place outfile) = some g) : ∃ w',
    Runs (handled (perform sys)) (filecopy infile outfile) w (.returned 2) w' ∧
      w'.files = w.files ∧ w'.dirs = w.dirs := by
  have hopen : perform sys (w.openFd (.file (sys.place infile) 0))
      (.open outfile .createExcl (regular f.mode)) =
        (none, w.openFd (.file (sys.place infile) 0)) := by
    have hne : ¬ (w.openFd (.file (sys.place infile) 0)).files (sys.place outfile) = none := by
      rw [show (w.openFd (.file (sys.place infile) 0)).files = w.files from rfl, hg]
      nofun
    simp only [perform, hne, false_and, if_false]
  exact ⟨_, runs_call (open_source hf) (runs_call (fstat_source hf) (runs_call hopen runs_done)),
    rfl, rfl⟩

theorem filecopy_copies (hf : w.files (sys.place infile) = some f)
    (hg : w.files (sys.place outfile) = none) (hdir : w.dirs (sys.place outfile).1)
    (hproper : Proper (sys.place outfile).2) : ∃ w',
    Runs (handled (perform sys)) (filecopy infile outfile) w (.returned 0) w' ∧
      w'.files = Function.update w.files (sys.place outfile) (some ⟨f.data, copyMode sys f⟩) ∧
        w'.dirs = w.dirs := by
  have hapart : sys.place infile ≠ sys.place outfile := by
    intro he
    rw [he, hg] at hf
    cases hf
  have hfds : w.opened ≠ w.opened + 1 := by omega
  let w₁ := w.openFd (.file (sys.place infile) 0)
  let w₂ := (create sys w₁ (sys.place outfile) (regular f.mode)).openFd
    (.file (sys.place outfile) 0)
  have hopen : perform sys w₁ (.open outfile .createExcl (regular f.mode)) =
      (some (w.opened + 1), w₂) := by
    have hfree : w₁.files (sys.place outfile) = none ∧ w₁.dirs (sys.place outfile).1 ∧
        Proper (sys.place outfile).2 := ⟨hg, hdir, hproper⟩
    simp only [perform, if_pos hfree]
    rfl
  have hstart : Copying w (sys.place infile) (sys.place outfile) f (copyMode sys f) w.opened
      (w.opened + 1) 0 w₂ :=
    ⟨rfl, rfl, (setFd_other hfds).trans setFd_same, setFd_same⟩
  obtain ⟨w₃, hloop, hfiles, hdirs, hin, hout⟩ := copyLoop_runs sys hf hapart hfds hstart
  have hclose₁ : perform sys w₃ (.close w.opened) = (0, w₃.setFd w.opened none) := by
    simp only [perform, hin, if_true]
  have hclose₂ : perform sys (w₃.setFd w.opened none) (.close (w.opened + 1)) =
      (0, (w₃.setFd w.opened none).setFd (w.opened + 1) none) := by
    simp only [perform, setFd_other (Ne.symm hfds), hout, if_true]
  refine ⟨(w₃.setFd w.opened none).setFd (w.opened + 1) none, runs_call (open_source hf)
    (runs_call (fstat_source hf) (runs_call hopen (.next hloop ?_))), hfiles, hdirs⟩
  simp only [closeBoth, close, library, ask_bind, if_true]
  exact runs_call hclose₁ (runs_call hclose₂ runs_done)

end Ti3.Trash.Copies
