import Ti3.Trash.Copies

namespace Ti3.Trash.NoLoss

open Library.CString Library.CMemory Library.Interaction Library.Rules
open Trashcan Directories Paths

variable {Dir : Type}

section

variable [DecidableEq Dir]

/-- The library when any call may fail. A read may deliver less than was asked
for, but nothing only at the end; a write may store less than it was given, also
when it reports an error. -/
def unreliable (sys : System Dir) : Environment Call Answer (World Dir) := fun w c a w' =>
  match c, a with
  | .getenv name, a => w' = w ∧ (name = ascii "HOME" → a = sys.home)
  | .array _, _ => w' = w
  | .mkdir path _, a => (w' = w ∧ ∃ e, a = .error e) ∨
      (a = .ok () ∧ w' = { w with dirs := Function.update w.dirs (sys.dirAt path) true })
  | .open path .rdonly _, a => (a = none ∧ w' = w) ∨ ∃ fd, a = some fd ∧ path ≠ [] ∧
      w.fds fd = none ∧
        ((w.files (sys.place path) ≠ none ∧ w' = w.setFd fd (some (.file (sys.place path) 0))) ∨
          (w.files (sys.place path) = none ∧ w' = w.setFd fd (some .directory)))
  | .open path .createExcl mode, a => (a = none ∧ w' = w) ∨ ∃ fd, a = some fd ∧
      w.fds fd = none ∧ w.files (sys.place path) = none ∧ Proper (sys.place path).2 ∧
        w' = (create sys w (sys.place path) mode).setFd fd (some (.file (sys.place path) 0))
  | .fstat fd, a => w' = w ∧ ∀ b, w.behind fd = some b → a = none ∨ a = some (regular b.2.2.mode)
  | .read fd count, a => (a = none ∧ w' = w) ∨ ∃ p pos f bytes, w.behind fd = some (p, pos, f) ∧
      a = some bytes ∧ bytes <+: (f.data.drop pos).take count ∧
        (bytes = [] → f.data.drop pos = []) ∧ w' = advance w fd p (pos + bytes.length)
  | .write fd bytes, a => (a = -1 ∧ w' = w) ∨ ∃ p pos f k, w.behind fd = some (p, pos, f) ∧
      k ≤ bytes.length ∧ (a = -1 ∨ a = (k : Int)) ∧ w' = store w fd p pos f (bytes.take k)
  | .close fd, _ => w' = w.setFd fd none
  | .unlink path, a => (a = -1 ∧ w' = w) ∨
      (a = 0 ∧ path ≠ [] ∧ w.files (sys.place path) ≠ none ∧ w' = w.setFile (sys.place path) none)

theorem unreliable_homeAt (sys : System Dir) : HomeAt (unreliable sys) sys.home where
  getenv _ _ _ h := ⟨h.2 rfl, h.1⟩
  array _ _ _ _ h := h

end

variable {sys : System Dir} {w : World Dir} {old : Option File} {src dst : Place Dir} {f : File}

/-- The source is as it was, and so is what was there at the target. -/
structure Safe (old : Option File) (src dst : Place Dir) (f : File) (w : World Dir) : Prop where
  source : w.files src = some f
  target : ∀ g, old = some g → w.files dst = some g

/-- In the copy loop: the target is new and holds what has been read. -/
structure Copying (old : Option File) (src dst : Place Dir) (f : File) (inFd outFd : Nat)
    (w : World Dir) : Prop where
  source : w.files src = some f
  fresh : old = none
  apart : src ≠ dst
  fds : inFd ≠ outFd
  copied : ∃ k mode, k ≤ f.data.length ∧ w.files dst = some ⟨f.data.take k, mode⟩ ∧
    w.fds inFd = some (.file src k) ∧ w.fds outFd = some (.file dst k)

/-- The target is new and holds everything. -/
structure Copied (old : Option File) (src dst : Place Dir) (f : File) (w : World Dir) : Prop where
  source : w.files src = some f
  fresh : old = none
  apart : src ≠ dst
  complete : ∃ mode, w.files dst = some ⟨f.data, mode⟩

theorem Copying.safe {inFd outFd : Nat} (h : Copying old src dst f inFd outFd w) :
    Safe old src dst f w := ⟨h.source, fun _ hg => absurd (h.fresh.symm.trans hg) nofun⟩

theorem Copied.safe (h : Copied old src dst f w) : Safe old src dst f w :=
  ⟨h.source, fun _ hg => absurd (h.fresh.symm.trans hg) nofun⟩

variable [DecidableEq Dir]

/-- The target holds what has been copied, and no other file has changed. -/
def Part (w : World Dir) (dst : Place Dir) (f : File) (mode : BitVec 12) (w' : World Dir) : Prop :=
  ∃ k, k ≤ f.data.length ∧ w'.files = Function.update w.files dst (some ⟨f.data.take k, mode⟩)

/-- What a round of the copy loop leaves, when the copy has begun in `w`. -/
def Leaves (w : World Dir) (src dst : Place Dir) (f : File) (mode : BitVec 12)
    (inFd outFd : Nat) : Outcome Exit (Unit ⊕ Bool) → World Dir → Prop :=
  follow (fun (_ : Outcome Exit Unit) => Part w dst f mode)
    (Sum.elim (fun _ w' => ∃ k, k ≤ f.data.length ∧
        Copies.Copying w src dst f mode inFd outFd k w')
      (fun complete w' => Part w dst f mode w' ∧ (complete = true →
        w'.files = Function.update w.files dst (some ⟨f.data, mode⟩))))

section round

variable {w' : World Dir} {mode : BitVec 12} {inFd outFd k : Nat}

/-- The second half of a round, when `bytes` have been read. -/
theorem write_leaves {bytes : Bytes} (hk : k ≤ f.data.length) (hfds : inFd ≠ outFd)
    (hread : bytes <+: f.data.drop k) (hc : Copies.Copying w src dst f mode inFd outFd k w') :
    Guarantees (unreliable sys) (do
      let written ← Trashcan.write outFd bytes
      if written = bytes.length then return .inl () else .halt .abort)
      (advance w' inFd src (k + bytes.length)) (Leaves w src dst f mode inFd outFd) := by
  have hdst : (advance w' inFd src (k + bytes.length)).files dst =
      some ⟨f.data.take k, mode⟩ := hc.target
  have hout : (advance w' inFd src (k + bytes.length)).fds outFd = some (.file dst k) :=
    (advance_other (Ne.symm hfds)).trans hc.output
  have hpart : Part w dst f mode (advance w' inFd src (k + bytes.length)) := ⟨k, hk, hc.files⟩
  have hlen := hread.length_le
  rw [List.length_drop] at hlen
  simp only [Trashcan.write, library, ask_bind]
  refine guarantees_call.mpr ⟨hpart, fun written w₁ hw => ?_⟩
  obtain ⟨rfl, rfl⟩ | ⟨p, pos, g, j, hb, hj, hwritten, rfl⟩ := hw
  · rw [if_neg (by omega)]
    exact guarantees_halt.mpr ⟨hpart, hpart⟩
  rw [behind_file hout hdst] at hb
  cases hb
  have htake : (bytes.take j).length = j := by
    rw [List.length_take, Nat.min_eq_left hj]
  have hfiles : (store (advance w' inFd src (k + bytes.length)) outFd dst k
      ⟨f.data.take k, mode⟩ (bytes.take j)).files =
        Function.update w.files dst (some ⟨f.data.take (k + j), mode⟩) := by
    rw [hc.stored ((List.take_prefix j bytes).trans hread), htake]
  have hstored : Part w dst f mode (store (advance w' inFd src (k + bytes.length)) outFd dst k
      ⟨f.data.take k, mode⟩ (bytes.take j)) := ⟨k + j, by omega, hfiles⟩
  obtain rfl | rfl := hwritten
  · rw [if_neg (by omega)]
    exact guarantees_halt.mpr ⟨hstored, hstored⟩
  by_cases hall : (j : Int) = bytes.length
  · have hje : j = bytes.length := by omega
    rw [if_pos hall]
    refine guarantees_done.mpr ⟨hstored, k + j, by omega, hfiles, hc.dirs, ?_, ?_⟩
    · rw [hje]
      exact (advance_other hfds).trans advance_same
    · exact advance_same.trans (by rw [htake])
  · rw [if_neg hall]
    exact guarantees_halt.mpr ⟨hstored, hstored⟩

/-- Each round copies on, stops at a failure, or finds that everything is there. -/
theorem copyStep_leaves (hf : w.files src = some f) (hapart : src ≠ dst) (hk : k ≤ f.data.length)
    (hfds : inFd ≠ outFd) (hc : Copies.Copying w src dst f mode inFd outFd k w') :
    Guarantees (unreliable sys) (copyStep inFd outFd ()) w'
      (Leaves w src dst f mode inFd outFd) := by
  have hpart : Part w dst f mode w' := ⟨k, hk, hc.files⟩
  simp only [copyStep, Trashcan.read, library, ask_bind]
  refine guarantees_call.mpr ⟨hpart, fun a w₁ ha => ?_⟩
  obtain ⟨rfl, rfl⟩ | ⟨p, pos, f', bytes, hb, rfl, hp, he, rfl⟩ := ha
  · exact guarantees_done.mpr ⟨hpart, hpart, by rintro ⟨⟩⟩
  rw [behind_file hc.input (hc.source hf hapart)] at hb
  cases hb
  cases bytes with
  | nil =>
    have hall : f.data.take k = f.data :=
      List.take_of_length_le (List.drop_eq_nil_iff.mp (he rfl))
    have hfiles := hc.files
    rw [hall] at hfiles
    exact guarantees_done.mpr ⟨hpart, hpart, fun _ => hfiles⟩
  | cons b bs => exact write_leaves hk hfds (hp.trans (List.take_prefix _ _)) hc

end round

/-- What the copy loop makes of a round. -/
def Round (old : Option File) (src dst : Place Dir) (f : File) (inFd outFd : Nat) :
    Outcome Exit (Unit ⊕ Bool) → World Dir → Prop :=
  follow (fun (_ : Outcome Exit Unit) => Safe old src dst f)
    (Sum.elim (fun _ => Copying old src dst f inFd outFd)
      (fun complete w => if complete then Copied old src dst f w else Safe old src dst f w))

theorem copyStep_guarantees {inFd outFd : Nat} (hc : Copying old src dst f inFd outFd w) :
    Guarantees (unreliable sys) (copyStep inFd outFd ()) w (Round old src dst f inFd outFd) := by
  obtain ⟨k, mode, hk, hdst, hin, hout⟩ := hc.copied
  have hsource {d : Bytes} {w' : World Dir}
      (hw : w'.files = Function.update w.files dst (some ⟨d, mode⟩)) :
      w'.files src = some f := by
    rw [hw, Function.update_of_ne hc.apart, hc.source]
  have hsafe {w' : World Dir} (hp : Part w dst f mode w') : Safe old src dst f w' := by
    obtain ⟨_, _, hw⟩ := hp
    exact ⟨hsource hw, fun _ hg => absurd (hc.fresh.symm.trans hg) nofun⟩
  have hstart : Copies.Copying w src dst f mode inFd outFd k w := by
    refine ⟨?_, rfl, hin, hout⟩
    rw [← hdst, Function.update_eq_self]
  refine guarantees_mono (copyStep_leaves hc.source hc.apart hk hc.fds hstart) (fun o w' h => ?_)
  match o with
  | .cut => exact hsafe h
  | .halted _ => exact hsafe h
  | .returned (.inl _) =>
    obtain ⟨k', hk', hc'⟩ := h
    refine ⟨hsource hc'.files, hc.fresh, hc.apart, hc.fds, k', mode, hk', ?_, hc'.input, hc'.output⟩
    rw [hc'.files, Function.update_self]
  | .returned (.inr false) => exact hsafe h.1
  | .returned (.inr true) =>
    have hfiles := h.2 rfl
    refine ⟨hsource hfiles, hc.fresh, hc.apart, mode, ?_⟩
    rw [hfiles, Function.update_self]

/-- Closing changes no file. -/
theorem closeBoth_files {inFd outFd : Nat} :
    Guarantees (unreliable sys) (closeBoth inFd outFd) w (fun _ w' => w'.files = w.files) := by
  simp only [closeBoth, close, library, ask_bind]
  refine guarantees_call.mpr ⟨rfl, fun a w₁ ha => ?_⟩
  obtain rfl : w₁ = w.setFd inFd none := ha
  split
  · exact guarantees_done.mpr ⟨rfl, rfl⟩
  · refine guarantees_call.mpr ⟨rfl, fun b w₂ hb => ?_⟩
    obtain rfl : w₂ = (w.setFd inFd none).setFd outFd none := hb
    split <;> exact guarantees_done.mpr ⟨rfl, rfl⟩

theorem closeBoth_guarantees {inFd outFd : Nat} (hc : Copied old src dst f w) :
    Guarantees (unreliable sys) (closeBoth inFd outFd) w (fun _ => Copied old src dst f) := by
  refine guarantees_mono closeBoth_files (fun _ w' hw => ?_)
  exact ⟨hw ▸ hc.source, hc.fresh, hc.apart, hw ▸ hc.complete⟩

theorem copy_guarantees {inFd outFd : Nat} (hc : Copying old src dst f inFd outFd w) :
    Guarantees (unreliable sys) (.loop (copyStep inFd outFd) () fun complete =>
      if complete then closeBoth inFd outFd else .done 3) w
      (fun o w' => Safe old src dst f w' ∧ (o = .returned 0 → Copied old src dst f w')) := by
  refine guarantees_loop (fun _ => Copying old src dst f inFd outFd) hc (fun _ w hc => ?_)
  refine guarantees_mono (copyStep_guarantees hc) (fun o w' hr => ?_)
  match o with
  | .cut => exact ⟨hr, nofun⟩
  | .halted _ => exact ⟨hr, nofun⟩
  | .returned (.inl _) => exact hr
  | .returned (.inr false) =>
    have hs : Safe old src dst f w' := hr
    exact guarantees_done.mpr ⟨⟨hs, nofun⟩, hs, nofun⟩
  | .returned (.inr true) =>
    have hc : Copied old src dst f w' := hr
    exact guarantees_mono (closeBoth_guarantees hc) (fun _ _ hc => ⟨hc.safe, fun _ => hc⟩)

/-- Both files have been opened, and the output is new. -/
structure Created (sys : System Dir) (w : World Dir) (infile outfile : Bytes)
    (mode : BitVec 12) (inFd outFd : Nat) (w' : World Dir) : Prop where
  named : infile ≠ []
  proper : Proper (sys.place outfile).2
  fresh : w.files (sys.place outfile) = none
  files : w'.files = Function.update w.files (sys.place outfile) (some ⟨[], mode⟩)
  dirs : w'.dirs = w.dirs
  fds : inFd ≠ outFd
  input : (w.files (sys.place infile) ≠ none ∧
      w'.fds inFd = some (.file (sys.place infile) 0)) ∨
    (w.files (sys.place infile) = none ∧ w'.fds inFd = some .directory)
  output : w'.fds outFd = some (.file (sys.place outfile) 0)

/-- A copy that does not come to its loop has touched no file. -/
theorem filecopy_opens {infile outfile : Bytes} {P : Outcome Exit Nat → World Dir → Prop}
    (hsame : ∀ o w', w'.files = w.files → o ≠ .returned 0 → P o w')
    (hcopy : ∀ mode inFd outFd w', Created sys w infile outfile mode inFd outFd w' →
      (∀ f, w.files (sys.place infile) = some f → mode = Copies.copyMode sys f) →
      Guarantees (unreliable sys) (.loop (copyStep inFd outFd) () fun complete =>
        if complete then closeBoth inFd outFd else .done 3) w' P) :
    Guarantees (unreliable sys) (filecopy infile outfile) w P := by
  have hcut {w' : World Dir} (hw : w'.files = w.files) : P .cut w' :=
    hsame _ _ hw (by rintro ⟨⟩)
  have hfailed {w' : World Dir} {n : Nat} (hw : w'.files = w.files) (hn : n ≠ 0) :
      Guarantees (unreliable sys) (.done n : Process Nat) w' P :=
    guarantees_done.mpr ⟨hcut hw, hsame _ _ hw (fun he => hn (Outcome.returned.inj he))⟩
  simp only [filecopy, openFile, fstat, library, ask_bind]
  refine guarantees_call.mpr ⟨hcut rfl, fun a w₁ ha => ?_⟩
  obtain ⟨rfl, rfl⟩ | ⟨inFd, rfl, hne, _, hw₁⟩ := ha
  · exact hfailed rfl (by decide)
  have hfiles : w₁.files = w.files := by
    obtain ⟨_, rfl⟩ | ⟨_, rfl⟩ := hw₁ <;> rfl
  have hdirs : w₁.dirs = w.dirs := by
    obtain ⟨_, rfl⟩ | ⟨_, rfl⟩ := hw₁ <;> rfl
  have hin : (w.files (sys.place infile) ≠ none ∧
        w₁.fds inFd = some (.file (sys.place infile) 0)) ∨
      (w.files (sys.place infile) = none ∧ w₁.fds inFd = some .directory) := by
    obtain ⟨hn, rfl⟩ | ⟨hn, rfl⟩ := hw₁
    · exact .inl ⟨hn, setFd_same⟩
    · exact .inr ⟨hn, setFd_same⟩
  refine guarantees_call.mpr ⟨hcut hfiles, fun mode w₂ hw₂ => ?_⟩
  obtain ⟨rfl, hmode⟩ := hw₂
  cases mode with
  | none => exact hfailed hfiles (by decide)
  | some mode =>
    have hbits {f : File} (hf : w.files (sys.place infile) = some f) :
        mode.setWidth 12 &&& ~~~sys.umask = Copies.copyMode sys f := by
      obtain ⟨_, hfd⟩ | ⟨hn, _⟩ := hin
      · obtain h | h := hmode _ (behind_file hfd (hfiles ▸ hf))
        · cases h
        · cases h
          rfl
      · cases hf.symm.trans hn
    refine guarantees_call.mpr ⟨hcut hfiles, fun a w₃ ha => ?_⟩
    obtain ⟨rfl, rfl⟩ | ⟨outFd, rfl, hfd, hnew, hproper, rfl⟩ := ha
    · exact hfailed hfiles (by decide)
    have hfds : inFd ≠ outFd := by
      rintro rfl
      obtain ⟨_, hf⟩ | ⟨_, hf⟩ := hin <;> cases hfd.symm.trans hf
    refine hcopy (mode.setWidth 12 &&& ~~~sys.umask) inFd outFd _
      ⟨hne, hproper, hfiles ▸ hnew, ?_, hdirs, hfds, ?_, setFd_same⟩ (fun _ hf => hbits hf)
    · rw [setFd_files, ← hfiles]
      rfl
    · rw [setFd_other hfds]
      exact hin

/-- A copy leaves everything as it was unless it is complete. -/
theorem filecopy_guarantees {infile outfile : Bytes} (hf : w.files (sys.place infile) = some f) :
    Guarantees (unreliable sys) (filecopy infile outfile) w (fun o w' =>
      Safe (w.files (sys.place outfile)) (sys.place infile) (sys.place outfile) f w' ∧
        (o = .returned 0 → Copied (w.files (sys.place outfile)) (sys.place infile)
          (sys.place outfile) f w')) := by
  refine filecopy_opens (fun o w' hw ho => ?_) (fun mode inFd outFd w' hc _ => ?_)
  · exact ⟨⟨hw ▸ hf, fun _ hg => hw ▸ hg⟩, fun he => absurd he ho⟩
  · have hapart : sys.place infile ≠ sys.place outfile := by
      intro he
      rw [he, hc.fresh] at hf
      cases hf
    have hin : w'.fds inFd = some (.file (sys.place infile) 0) := by
      obtain ⟨_, h⟩ | ⟨hn, _⟩ := hc.input
      · exact h
      · exact absurd (hf.symm.trans hn) nofun
    refine copy_guarantees ⟨?_, hc.fresh, hapart, hc.fds, 0, mode, Nat.zero_le _, ?_, hin,
      hc.output⟩
    · rw [hc.files, Function.update_of_ne hapart, hf]
    · rw [hc.files, Function.update_self]
      rfl

/-- The content is still there, under the one name or the other, and a file that
was there at the target is as it was. -/
structure Kept (old : Option File) (src dst : Place Dir) (data : Bytes) (w : World Dir) : Prop where
  content : (∃ f, w.files src = some f ∧ f.data = data) ∨ ∃ f, w.files dst = some f ∧ f.data = data
  target : ∀ g, old = some g → w.files dst = some g

omit [DecidableEq Dir] in
theorem Safe.kept (h : Safe old src dst f w) : Kept old src dst f.data w :=
  ⟨.inl ⟨f, h.source, rfl⟩, h.target⟩

/-- Only a complete copy is followed by the removal of the source. -/
theorem transfer_guarantees {infile outfile uncopied unremoved : Bytes}
    (hf : w.files (sys.place infile) = some f) :
    Guarantees (unreliable sys) (transfer infile outfile uncopied unremoved) w (fun _ w' =>
      Kept (w.files (sys.place outfile)) (sys.place infile) (sys.place outfile) f.data w') := by
  refine guarantees_bind (guarantees_mono (filecopy_guarantees hf) (fun o w₁ hr => ?_))
  obtain ⟨hs, hc⟩ := hr
  cases o with
  | cut | halted _ => exact hs.kept
  | returned n =>
    simp only [follow]
    by_cases hn : n ≠ 0
    · rw [if_pos hn]
      exact guarantees_halt.mpr ⟨hs.kept, hs.kept⟩
    · rw [if_neg hn]
      have hc := hc (by rw [not_not.mp hn])
      simp only [Trashcan.unlink, library, ask_bind]
      refine guarantees_call.mpr ⟨hs.kept, fun a w₂ ha => ?_⟩
      obtain ⟨rfl, rfl⟩ | ⟨rfl, _, _, rfl⟩ := ha
      · exact guarantees_halt.mpr ⟨hs.kept, hs.kept⟩
      · obtain ⟨mode, hcomplete⟩ := hc.complete
        have hkept : Kept (w.files (sys.place outfile)) (sys.place infile) (sys.place outfile)
            f.data (w₁.setFile (sys.place infile) none) :=
          ⟨.inr ⟨_, (setFile_other (Ne.symm hc.apart)).trans hcomplete, rfl⟩,
            fun _ hg => by cases hc.fresh.symm.trans hg⟩
        exact guarantees_done.mpr ⟨hkept, hkept⟩

theorem filecopy_blocked {infile outfile : Bytes}
    (h : infile = [] ∨ outfile = [] ∨ w.files (sys.place outfile) ≠ none) :
    Guarantees (unreliable sys) (filecopy infile outfile) w
      (fun o w' => w'.files = w.files ∧ o ≠ .returned 0) := by
  refine filecopy_opens (fun o w' hw ho => ⟨hw, ho⟩) (fun mode inFd outFd w' hc _ => ?_)
  obtain rfl | rfl | hne := h
  · exact absurd rfl hc.named
  · exact absurd rfl hc.proper.1
  · exact absurd hc.fresh hne

/-- Without a path to open, or with a file at the target, nothing is moved. -/
theorem transfer_blocked {infile outfile uncopied unremoved : Bytes}
    (h : infile = [] ∨ outfile = [] ∨ w.files (sys.place outfile) ≠ none) :
    Guarantees (unreliable sys) (transfer infile outfile uncopied unremoved) w
      (fun o w' => w'.files = w.files ∧ o ≠ .returned ()) := by
  refine guarantees_bind (guarantees_mono (filecopy_blocked h) (fun o w₁ ⟨hw, ho⟩ => ?_))
  cases o with
  | cut | halted _ => exact ⟨hw, nofun⟩
  | returned n =>
    have hn : n ≠ 0 := fun he => ho (he ▸ rfl)
    simp only [follow, if_pos hn]
    exact guarantees_halt.mpr ⟨⟨hw, nofun⟩, hw, nofun⟩

variable {filename home : Bytes}

/-- The path that `trashname` makes: nothing without a home directory. -/
def trashed (sys : System Dir) (filename : Bytes) : Bytes :=
  match sys.home with
  | some home => trashPath home filename
  | none => []

omit [DecidableEq Dir] in
theorem trashed_some (hhome : sys.home = some home) :
    trashed sys filename = trashPath home filename := by
  rw [trashed, hhome]

omit [DecidableEq Dir] in
theorem trashed_none (hhome : sys.home = none) : trashed sys filename = [] := by
  rw [trashed, hhome]

theorem trashname_keeps (hh : ∀ home, sys.home = some home → 0 ∉ home) (h₁ : 0 ∉ filename) :
    Guarantees (unreliable sys) (trashname filename) w (fun o w' => w' = w ∧
      ∀ path, o = .returned path → path = trashed sys filename) := by
  have he := unreliable_homeAt sys
  cases hs : sys.home with
  | none =>
    rw [hs] at he
    refine guarantees_mono (trashname_unset he) (fun o w' ⟨hw, ho⟩ => ⟨hw, fun path hp => ?_⟩)
    subst hp
    rw [trashed_none hs]
    simpa using ho
  | some home =>
    rw [hs] at he
    refine guarantees_mono (trashname_guarantees he (hh home hs) h₁)
      (fun o w' ⟨hw, ho⟩ => ⟨hw, fun path hp => ?_⟩)
    subst hp
    rw [trashed_some hs]
    simpa using ho

/-- The trash directory is made without touching a file. -/
theorem optMktrashdir_guarantees (hh : ∀ home, sys.home = some home → 0 ∉ home) :
    Guarantees (unreliable sys) optMktrashdir w (fun _ w' => w'.files = w.files) := by
  refine guarantees_bind (guarantees_mono (trashname_keeps hh List.not_mem_nil)
    (fun o w₁ ⟨hw, _⟩ => ?_))
  subst hw
  cases o with
  | cut | halted _ => rfl
  | returned path =>
    simp only [follow, mkdir, library, ask_bind]
    refine guarantees_call.mpr ⟨rfl, fun a w₂ ha => ?_⟩
    obtain ⟨rfl, e, rfl⟩ | ⟨rfl, rfl⟩ := ha
    · cases e with
      | eexist => exact guarantees_done.mpr ⟨rfl, rfl⟩
      | other => exact guarantees_halt.mpr ⟨rfl, rfl⟩
    · exact guarantees_done.mpr ⟨rfl, rfl⟩

/-- Where the file is to go: with the home directory unset nowhere, and then no
file is touched. -/
def KeptFrom (sys : System Dir) (w : World Dir) (filename : Bytes) (data : Bytes)
    (w' : World Dir) : Prop :=
  match sys.home with
  | some home => Kept (w.files (sys.place (trashPath home filename))) (sys.place filename)
      (sys.place (trashPath home filename)) data w'
  | none => w'.files = w.files

/-- What the command leaves is what the transfer leaves. -/
theorem moveToTrash_transfers {P : Outcome Exit Unit → World Dir → Prop}
    (hh : ∀ home, sys.home = some home → 0 ∉ home) (h₁ : 0 ∉ filename)
    (hsame : ∀ o w', w'.files = w.files → o ≠ .returned () → P o w')
    (hcopy : ∀ w₁ uncopied unremoved, w₁.files = w.files →
      Guarantees (unreliable sys) (transfer filename (trashed sys filename) uncopied unremoved)
        w₁ P) :
    Guarantees (unreliable sys) (moveToTrash filename) w P := by
  refine guarantees_bind (guarantees_mono (optMktrashdir_guarantees hh) (fun o w₁ hw₁ => ?_))
  cases o with
  | cut | halted _ => exact hsame _ _ hw₁ nofun
  | returned _ =>
    refine guarantees_bind (guarantees_mono (trashname_keeps hh h₁) (fun o w₂ ⟨hw₂, ho⟩ => ?_))
    subst hw₂
    cases o with
    | cut | halted _ => exact hsame _ _ hw₁ nofun
    | returned path =>
      rw [ho path rfl]
      exact hcopy _ _ _ hw₁

theorem recoverFromTrash_transfers {P : Outcome Exit Unit → World Dir → Prop}
    (hh : ∀ home, sys.home = some home → 0 ∉ home) (h₁ : 0 ∉ filename)
    (hsame : ∀ o, o ≠ .returned () → P o w)
    (hcopy : ∀ uncopied unremoved,
      Guarantees (unreliable sys) (transfer (trashed sys filename) filename uncopied unremoved)
        w P) :
    Guarantees (unreliable sys) (recoverFromTrash filename) w P := by
  refine guarantees_bind (guarantees_mono (trashname_keeps hh h₁) (fun o w₁ ⟨hw₁, ho⟩ => ?_))
  subst hw₁
  cases o with
  | cut | halted _ => exact hsame _ nofun
  | returned path =>
    rw [ho path rfl]
    exact hcopy _ _

theorem moveToTrash_guarantees (hh : ∀ home, sys.home = some home → 0 ∉ home)
    (h₁ : 0 ∉ filename) (hf : w.files (sys.place filename) = some f) :
    Guarantees (unreliable sys) (moveToTrash filename) w
      (fun _ => KeptFrom sys w filename f.data) := by
  have hsame {w' : World Dir} (hw : w'.files = w.files) : KeptFrom sys w filename f.data w' := by
    rw [KeptFrom]
    split
    · exact ⟨.inl ⟨f, hw ▸ hf, rfl⟩, fun _ hg => hw ▸ hg⟩
    · exact hw
  refine moveToTrash_transfers hh h₁ (fun _ w' hw _ => hsame hw) (fun w₁ _ _ hw₁ => ?_)
  cases hhome : sys.home with
  | none =>
    rw [trashed_none hhome]
    exact guarantees_mono (transfer_blocked (.inr (.inl rfl)))
      (fun _ _ ⟨hw, _⟩ => hsame (hw.trans hw₁))
  | some home =>
    rw [trashed_some hhome]
    refine guarantees_mono (transfer_guarantees (hw₁ ▸ hf)) (fun _ w' hk => ?_)
    rw [KeptFrom, hhome, ← hw₁]
    exact hk

theorem recoverFromTrash_guarantees (hh : ∀ home, sys.home = some home → 0 ∉ home)
    (h₁ : 0 ∉ filename) (hhome : sys.home = some home)
    (hf : w.files (sys.place (trashPath home filename)) = some f) :
    Guarantees (unreliable sys) (recoverFromTrash filename) w
      (fun _ => Kept (w.files (sys.place filename)) (sys.place (trashPath home filename))
        (sys.place filename) f.data) := by
  refine recoverFromTrash_transfers hh h₁ (fun _ _ => ⟨.inl ⟨f, hf, rfl⟩, fun _ hg => hg⟩)
    (fun _ _ => ?_)
  rw [trashed_some hhome]
  exact transfer_guarantees hf

/-- Whatever fails and wherever a run ends: the content of the file that was to
be moved is at its old or at its new place, and no other file is overwritten. -/
theorem content_kept (sys : System Dir) (w : World Dir) (filename : Bytes)
    (hh : ∀ home, sys.home = some home → 0 ∉ home) (h₁ : 0 ∉ filename) :
    (∀ f, w.files (sys.place filename) = some f →
      Guarantees (unreliable sys) (moveToTrash filename) w
        (fun _ => KeptFrom sys w filename f.data)) ∧
      ∀ home f, sys.home = some home →
        w.files (sys.place (trashPath home filename)) = some f →
        Guarantees (unreliable sys) (recoverFromTrash filename) w
          (fun _ => Kept (w.files (sys.place filename)) (sys.place (trashPath home filename))
            (sys.place filename) f.data) :=
  ⟨fun _ hf => moveToTrash_guarantees hh h₁ hf,
    fun _ _ hhome hf => recoverFromTrash_guarantees hh h₁ hhome hf⟩

theorem content_kept_desk : Guarantees (unreliable desk) (moveToTrash (ascii "a"))
    (World.single (ascii "a") (ascii "text"))
    (fun _ => KeptFrom desk (World.single (ascii "a") (ascii "text")) (ascii "a") (ascii "text")) :=
  (content_kept desk (World.single (ascii "a") (ascii "text")) (ascii "a")
    (fun _ h => by cases h; decide) (by decide)).1 ⟨ascii "text", 0o644⟩ (by decide)

end Ti3.Trash.NoLoss
