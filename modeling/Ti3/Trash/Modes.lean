import Ti3.Trash.Leftovers
import Ti3.Trash.Machine

namespace Ti3.Trash.Modes

open Library.CString Library.Interaction Library.Rules
open Trashcan Directories Paths Copies NoLoss Leftovers Machine

variable {Dir : Type} {sys : System Dir} {w w₁ w' : World Dir} {infile outfile filename : Bytes}

/-- The bits for reading, writing and executing. -/
def permissions (mode : BitVec 12) : BitVec 9 := mode.setWidth 9

/-- The mask is applied to a copy as to every new file. -/
theorem copyMode_eq (sys : System Dir) (f : File) : copyMode sys f = f.mode &&& ~~~sys.umask := by
  have hr : (regular f.mode).setWidth 12 = f.mode := by
    rw [regular, BitVec.setWidth_or, BitVec.setWidth_setWidth_of_le _ (by omega),
      BitVec.setWidth_eq]
    exact BitVec.zero_or
  rw [copyMode, hr]

variable [DecidableEq Dir] {mode : BitVec 12} {inFd outFd : Nat}

/-- The file has gone from one place to another, with the bits that the mask
leaves. -/
def Moves (sys : System Dir) (w : World Dir) (p : Place Dir) (w' : World Dir) (p' : Place Dir) :
    Prop :=
  ∃ f, w.files p = some f ∧ w'.files p' = some ⟨f.data, f.mode &&& ~~~sys.umask⟩

theorem copyLoop_complete {f : File} (hc : Created sys w infile outfile mode inFd outFd w₁)
    (hf : w.files (sys.place infile) = some f)
    (hin : w₁.fds inFd = some (.file (sys.place infile) 0)) :
    Guarantees (unreliable sys) (.loop (copyStep inFd outFd) () fun complete =>
      if complete then closeBoth inFd outFd else .done 3) w₁ (fun o w' => o = .returned 0 →
        w'.files = Function.update w.files (sys.place outfile) (some ⟨f.data, mode⟩)) := by
  have hapart : sys.place infile ≠ sys.place outfile := by
    intro he
    rw [he, hc.fresh] at hf
    cases hf
  refine guarantees_loop (fun _ w' => ∃ k, k ≤ f.data.length ∧
    Copies.Copying w (sys.place infile) (sys.place outfile) f mode inFd outFd k w')
    ⟨0, Nat.zero_le _, hc.files, hc.dirs, hin, hc.output⟩ (fun _ w₂ ⟨k, hk, hk'⟩ => ?_)
  refine guarantees_mono (copyStep_leaves hf hapart hk hc.fds hk') (fun o w₃ h => ?_)
  match o with
  | .cut => exact nofun
  | .halted _ => exact nofun
  | .returned (.inl _) => exact h
  | .returned (.inr false) => exact guarantees_done.mpr ⟨nofun, nofun⟩
  | .returned (.inr true) =>
    exact guarantees_mono closeBoth_files (fun _ _ hw _ => hw.trans (h.2 rfl))

/-- A copy that succeeds is one of a regular file, under a name that was free. -/
theorem filecopy_complete : Guarantees (unreliable sys) (filecopy infile outfile) w
    (fun o w' => o = .returned 0 → ∃ f, w.files (sys.place infile) = some f ∧
      w.files (sys.place outfile) = none ∧ w'.files =
        Function.update w.files (sys.place outfile) (some ⟨f.data, copyMode sys f⟩)) := by
  refine filecopy_opens (fun _ _ _ ho he => absurd he ho) (fun mode inFd outFd w₁ hc hmode => ?_)
  obtain ⟨hn, hin⟩ | ⟨_, hin⟩ := hc.input
  · obtain ⟨f, hf⟩ := Option.ne_none_iff_exists'.mp hn
    refine guarantees_mono (copyLoop_complete hc hf hin) (fun o w' h ho => ?_)
    exact ⟨f, hf, hc.fresh, hmode f hf ▸ h ho⟩
  · exact guarantees_mono (copyDirectory_fails hin) (fun o w' h ho => absurd ho h.2)

theorem transfer_moves {uncopied unremoved : Bytes} :
    Guarantees (unreliable sys) (transfer infile outfile uncopied unremoved) w
      (fun o w' => o = .returned () → Moves sys w (sys.place infile) w' (sys.place outfile)) := by
  refine guarantees_bind (guarantees_mono filecopy_complete (fun o w₁ h => ?_))
  cases o with
  | cut | halted _ => exact (by rintro ⟨⟩)
  | returned n =>
    simp only [follow]
    by_cases hn : n ≠ 0
    · rw [if_pos hn]
      exact guarantees_halt.mpr ⟨by rintro ⟨⟩, by rintro ⟨⟩⟩
    · rw [if_neg hn]
      obtain ⟨f, hf, hfresh, hw₁⟩ := h (by rw [not_not.mp hn])
      have hapart : sys.place outfile ≠ sys.place infile := by
        intro he
        rw [he, hf] at hfresh
        cases hfresh
      simp only [Trashcan.unlink, library, ask_bind]
      refine guarantees_call.mpr ⟨by rintro ⟨⟩, fun a w₂ ha => ?_⟩
      obtain ⟨rfl, rfl⟩ | ⟨rfl, _, _, rfl⟩ := ha
      · exact guarantees_halt.mpr ⟨by rintro ⟨⟩, by rintro ⟨⟩⟩
      · refine guarantees_done.mpr ⟨by rintro ⟨⟩, fun _ => ⟨f, hf, ?_⟩⟩
        rw [setFile_other hapart, hw₁, Function.update_self, copyMode_eq]

/-- Environment strings end at their first zero. -/
def HomeText (sys : System Dir) : Prop := ∀ home, sys.home = some home → 0 ∉ home

theorem moveToTrash_moves (hh : HomeText sys) (h₁ : 0 ∉ filename) :
    Guarantees (unreliable sys) (moveToTrash filename) w (fun o w' => o = .returned () →
      Moves sys w (sys.place filename) w' (sys.place (trashed sys filename))) := by
  refine moveToTrash_transfers hh h₁ (fun _ _ _ ho he => absurd he ho) (fun w₁ _ _ hw₁ => ?_)
  refine guarantees_mono transfer_moves (fun o w' h ho => ?_)
  obtain ⟨f, hf, hf'⟩ := h ho
  exact ⟨f, hw₁ ▸ hf, hf'⟩

theorem recoverFromTrash_moves (hh : HomeText sys) (h₁ : 0 ∉ filename) :
    Guarantees (unreliable sys) (recoverFromTrash filename) w (fun o w' => o = .returned () →
      Moves sys w (sys.place (trashed sys filename)) w' (sys.place filename)) :=
  recoverFromTrash_transfers hh h₁ (fun _ ho he => absurd he ho) (fun _ _ => transfer_moves)

/-- One successful command on the file at a place, with the current directory, the
home directory and the mask of that time. -/
inductive Step (sys : System Dir) (prog : Bytes) :
    World Dir → Place Dir → World Dir → Place Dir → Prop
  | put {name w w'} : HomeText sys → 0 ∉ name →
      Runs (unreliable sys) (main ((Command.put name).argv prog)) w (.returned ()) w' →
      Step sys prog w (sys.place name) w' (sys.place (trashed sys name))
  | get {name w w'} : HomeText sys → 0 ∉ name →
      Runs (unreliable sys) (main ((Command.get name).argv prog)) w (.returned ()) w' →
      Step sys prog w (sys.place (trashed sys name)) w' (sys.place name)

theorem step_moves {prog : Bytes} {p p' : Place Dir} (h : Step sys prog w p w' p') :
    Moves sys w p w' p' := by
  cases h with
  | put hh hn hr =>
    rw [main_put] at hr
    exact moveToTrash_moves hh hn _ _ hr rfl
  | get hh hn hr =>
    rw [main_get] at hr
    exact recoverFromTrash_moves hh hn _ _ hr rfl

/-- Successful commands on one file, with the circumstances of each of them. In
between anything may happen that leaves the file alone. -/
inductive Journey (prog : Bytes) :
    World Dir → Place Dir → List (System Dir) → World Dir → Place Dir → Prop
  | stop {w p} : Journey prog w p [] w p
  | next {sys syss w p w₁ p₁ w₂ w' p'} : Step sys prog w p w₁ p₁ → w₂.files p₁ = w₁.files p₁ →
      Journey prog w₂ p₁ syss w' p' → Journey prog w p (sys :: syss) w' p'

omit [DecidableEq Dir] in
/-- The bits that at least one of the masks takes away. -/
def masked (syss : List (System Dir)) : BitVec 12 := syss.foldr (fun sys m => sys.umask ||| m) 0

theorem journey_moves {prog : Bytes} {syss : List (System Dir)} {p p' : Place Dir} {f : File}
    (h : Journey prog w p syss w' p') (hf : w.files p = some f) :
    w'.files p' = some ⟨f.data, f.mode &&& ~~~masked syss⟩ := by
  induction h generalizing f with
  | stop =>
    rw [hf, masked, List.foldr_nil, BitVec.ofNat_eq_ofNat, BitVec.not_zero, BitVec.and_allOnes]
  | @next sys syss w p w₁ p₁ w₂ w' p' hs hw₂ _ ih =>
    obtain ⟨g, hg, hf'⟩ := step_moves hs
    cases hf.symm.trans hg
    have hmask : f.mode &&& ~~~sys.umask &&& ~~~masked syss =
        f.mode &&& ~~~masked (sys :: syss) := by
      rw [BitVec.and_assoc, ← BitVec.not_or]
      rfl
    rw [ih (hw₂.trans hf'), hmask]

theorem and_not_eq_iff {n : Nat} {m u : BitVec n} : m &&& ~~~u = m ↔ m &&& u = 0 := by
  rw [BitVec.eq_of_getElem_eq_iff, BitVec.eq_of_getElem_eq_iff]
  refine forall₂_congr (fun i hi => ?_)
  rw [BitVec.getElem_and, BitVec.getElem_and, BitVec.getElem_not]
  cases m[i] <;> cases u[i] <;> simp

omit [DecidableEq Dir] in
theorem and_masked_eq_iff (syss : List (System Dir)) (mode : BitVec 12) :
    permissions (mode &&& masked syss) = 0 ↔
      ∀ sys ∈ syss, permissions (mode &&& sys.umask) = 0 := by
  induction syss with
  | nil => simp [masked, permissions]
  | cons sys syss ih =>
    have hor : permissions (mode &&& masked (sys :: syss)) =
        permissions (mode &&& sys.umask) ||| permissions (mode &&& masked syss) := by
      rw [permissions, permissions, permissions, ← BitVec.setWidth_or,
        ← BitVec.and_or_distrib_left]
      rfl
    rw [List.forall_mem_cons, ← ih, hor]
    exact BitVec.or_eq_zero_iff

/-- The permission bits come through a journey exactly when no mask on the way
takes one of them away. -/
theorem permissions_kept_iff {prog : Bytes} {syss : List (System Dir)} {p p' : Place Dir}
    {f : File} (h : Journey prog w p syss w' p') (hf : w.files p = some f) :
    ∃ g, w'.files p' = some g ∧ g.data = f.data ∧
      (permissions g.mode = permissions f.mode ↔
        ∀ sys ∈ syss, permissions (f.mode &&& sys.umask) = 0) := by
  have hbits : permissions (f.mode &&& ~~~masked syss) =
      permissions f.mode &&& ~~~permissions (masked syss) := by
    rw [permissions, BitVec.setWidth_and, BitVec.setWidth_not (by omega), permissions, permissions]
  refine ⟨_, journey_moves h hf, rfl, ?_⟩
  rw [← and_masked_eq_iff, hbits, and_not_eq_iff, permissions, permissions, permissions,
    BitVec.setWidth_and]

/-- An empty file can be copied with one read. -/
theorem filecopy_empty {f : File} (hne : infile ≠ []) (hf : w.files (sys.place infile) = some f)
    (hempty : f.data = []) (hfresh : w.files (sys.place outfile) = none)
    (hproper : Proper (sys.place outfile).2) (hfds : ∀ fd, w.fds fd = none) :
    ∃ w', Runs (unreliable sys) (filecopy infile outfile) w (.returned 0) w' ∧
      w'.files (sys.place infile) = some f := by
  let w₁ := opened sys w infile outfile f
  have hapart : sys.place infile ≠ sys.place outfile := by
    intro he
    rw [he, hfresh] at hf
    cases hf
  have hsource : w₁.files (sys.place infile) = some f := (setFile_other hapart).trans hf
  have hin : w₁.fds 3 = some (.file (sys.place infile) 0) := by
    rw [show w₁.fds 3 = (w.setFd 3 (some (.file (sys.place infile) 0))).fds 3 from
      setFd_other (by decide)]
    exact setFd_same
  have hread : unreliable sys w₁ (.read 3 buffsize) (some []) (advance w₁ 3 (sys.place infile) 0) :=
    .inr ⟨_, 0, f, [], behind_file hin hsource, rfl, List.nil_prefix,
      fun _ => by rw [hempty, List.drop_nil], rfl⟩
  have hclose : Runs (unreliable sys) (closeBoth 3 4) (advance w₁ 3 (sys.place infile) 0)
      (.returned 0) (((advance w₁ 3 (sys.place infile) 0).setFd 3 none).setFd 4 none) := by
    simp only [closeBoth, close, library, ask_bind]
    apply runs_call (a := (0 : Int)) rfl
    rw [if_neg (by decide)]
    exact runs_call (a := (0 : Int)) rfl runs_done
  exact ⟨_, filecopy_enters hne hf hfresh hproper hfds
    (loop_stop (runs_call hread runs_done) hclose), hsource⟩

/-- The desk of a user who keeps new files from all others. -/
def closedDesk : System Bytes := { desk with umask := 0o077 }

theorem closedDesk_step : ∃ w', Step closedDesk (ascii "trashcan") (World.single (ascii "a") [])
    (closedDesk.place (ascii "a")) w' (closedDesk.place (trashed closedDesk (ascii "a"))) := by
  have hhome : closedDesk.home = some (ascii "/home/a") := rfl
  let w₁ : World Bytes := { World.single (ascii "a") [] with
    dirs := Function.update (World.single (ascii "a") []).dirs
      (closedDesk.dirAt (trashPath (ascii "/home/a") [])) true }
  have hf : w₁.files (closedDesk.place (ascii "a")) = some ⟨[], 0o644⟩ := by decide
  have hfresh : w₁.files (closedDesk.place (trashPath (ascii "/home/a") (ascii "a"))) = none := by
    decide
  obtain ⟨w₂, hcopy, hsource⟩ := filecopy_empty (w := w₁) (by decide) hf rfl hfresh (by decide)
    (fun _ => rfl)
  have hunlink : unreliable closedDesk w₂ (.unlink (ascii "a")) 0
      (w₂.setFile (closedDesk.place (ascii "a")) none) := by
    refine .inr ⟨rfl, by decide, ?_, rfl⟩
    rw [hsource]
    nofun
  have hhomeText : HomeText closedDesk := by
    rintro _ ⟨⟩
    decide
  have hmove : Runs (unreliable closedDesk) (moveToTrash (ascii "a"))
      (World.single (ascii "a") []) (.returned ())
      (w₂.setFile (closedDesk.place (ascii "a")) none) := by
    apply moveToTrash_enters hhome (by decide) (by decide)
    apply runs_next hcopy
    exact runs_call hunlink runs_done
  refine ⟨w₂.setFile (closedDesk.place (ascii "a")) none, .put hhomeText (by decide) ?_⟩
  rw [main_put]
  exact hmove

theorem permissions_kept_iff_closedDesk : ∃ w' p', Journey (ascii "trashcan")
      (World.single (ascii "a") []) (closedDesk.place (ascii "a")) [closedDesk] w' p' ∧
    ∃ g, w'.files p' = some g ∧ g.data = [] ∧
      (permissions g.mode = permissions 0o644 ↔
        ∀ sys ∈ [closedDesk], permissions (0o644 &&& sys.umask) = 0) := by
  obtain ⟨w', hs⟩ := closedDesk_step
  have hj := Journey.next hs rfl .stop
  exact ⟨w', _, hj, permissions_kept_iff hj (f := ⟨[], 0o644⟩) (by decide)⟩

/-- A file that all may read comes back as one for its owner only. -/
theorem closedDesk_strips : ¬ ∀ w' p', Journey (ascii "trashcan")
    (World.single (ascii "a") []) (closedDesk.place (ascii "a")) [closedDesk] w' p' →
      ∃ g, w'.files p' = some g ∧ permissions g.mode = permissions 0o644 := by
  intro h
  obtain ⟨w', hs⟩ := closedDesk_step
  have hj := Journey.next hs rfl .stop
  have hmoved := journey_moves hj (f := ⟨[], 0o644⟩) (by decide)
  obtain ⟨g, hg, hbits⟩ := h w' _ hj
  cases hmoved.symm.trans hg
  exact absurd hbits (by decide)

end Ti3.Trash.Modes
