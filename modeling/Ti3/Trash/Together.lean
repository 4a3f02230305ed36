import Ti3.Trash.Shared

namespace Ti3.Trash.Together

open Library.CString Library.Interaction Library.Concurrency Library.RelyGuarantee
open Trashcan Directories Paths Machine Shared

variable {Dir ι : Type} {src dst : ι → Place Dir} {i : ι} {w w' : Files Dir ι}

/-- Nothing has been created yet. -/
structure Idle (src dst : ι → Place Dir) (i : ι) (w : Files Dir ι) : Prop where
  sound : Sound src dst w
  none : w.unfinished i = none
  absent : i ∉ w.order

/-- The original is open, or the directory that has its name. -/
structure Opening (src dst : ι → Place Dir) (i : ι) (inFd : Nat) (w : Files Dir ι) : Prop
    extends Idle src dst i w where
  input : (∃ x, w.fds i inFd = some (.file x 0) ∧ Usable src dst i w x) ∨
    (w.fds i inFd = some .directory ∧ w.names (src i) = some .directory)

/-- The copy has been created. From a file the first `m` bytes have been read, and `k`
of them are written. -/
structure Copying (src dst : ι → Place Dir) (i : ι) (inFd outFd t x m k : Nat) (f : File)
    (w : Files Dir ι) : Prop where
  sound : Sound src dst w
  absent : i ∉ w.order
  own : w.unfinished i = some t
  apart : inFd ≠ outFd
  input : w.fds i inFd = some (.file x m)
  output : w.fds i outFd = some (.file t k)
  finished : Finished w x
  original : w.inodes x = some f
  source : contents w (src i) = some f.data
  copied : ∃ mode, w.inodes t = some ⟨f.data.take k, mode⟩

/-- A directory cannot be read. -/
structure Unreadable (src dst : ι → Place Dir) (i : ι) (inFd : Nat) (w : Files Dir ι) :
    Prop where
  sound : Sound src dst w
  absent : i ∉ w.order
  input : w.fds i inFd = some .directory

/-- The copy is complete. -/
structure Copied (src dst : ι → Place Dir) (i : ι) (t : Nat) (f : File) (w : Files Dir ι) :
    Prop where
  sound : Sound src dst w
  absent : i ∉ w.order
  own : w.unfinished i = some t
  copy : w.inodes t = some f
  source : contents w (src i) = some f.data

variable [DecidableEq ι] [DecidableEq Dir]

section stable

variable {j : ι} {inFd outFd t x m k : Nat} {f : File}

theorem idle_stable (hpair : Paired src dst) (hij : j ≠ i) (h : Act src dst j w w')
    (hi : Idle src dst i w) : Idle src dst i w' :=
  ⟨act_sound hpair hi.sound h, (act_others (Ne.symm hij) h).2.1.trans hi.none,
    fun hm => hi.absent ((act_others (Ne.symm hij) h).2.2.mp hm)⟩

theorem opening_stable (hpair : Paired src dst) (hij : j ≠ i) (h : Act src dst j w w')
    (hi : Opening src dst i inFd w) : Opening src dst i inFd w' := by
  have hfds := (act_others (Ne.symm hij) h).1
  refine ⟨idle_stable hpair hij h hi.toIdle, ?_⟩
  rw [hfds]
  exact hi.input.imp
    (Exists.imp fun _ hx => ⟨hx.1, act_usable hpair hi.sound (Ne.symm hij) hx.2 h⟩)
    (And.imp_right (fun hp => act_directory hp h))

theorem copying_stable (hpair : Paired src dst) (hij : j ≠ i) (h : Act src dst j w w')
    (hi : Copying src dst i inFd outFd t x m k f w) :
    Copying src dst i inFd outFd t x m k f w' := by
  obtain ⟨hfds, hown, horder⟩ := act_others (Ne.symm hij) h
  obtain ⟨hfin, horiginal⟩ := act_finished hi.finished hi.original h
  obtain ⟨hcopy, hsource⟩ := act_copy hpair hi.sound (Ne.symm hij) hi.own h
  exact ⟨act_sound hpair hi.sound h, fun hm => hi.absent (horder.mp hm), hown.trans hi.own,
    hi.apart, hfds ▸ hi.input, hfds ▸ hi.output, hfin, horiginal, hsource _ hi.source,
    hi.copied.imp (fun _ hm => hcopy _ hm)⟩

theorem unreadable_stable (hpair : Paired src dst) (hij : j ≠ i) (h : Act src dst j w w')
    (hi : Unreadable src dst i inFd w) : Unreadable src dst i inFd w' := by
  obtain ⟨hfds, -, horder⟩ := act_others (Ne.symm hij) h
  exact ⟨act_sound hpair hi.sound h, fun hm => hi.absent (horder.mp hm), hfds ▸ hi.input⟩

theorem copied_stable (hpair : Paired src dst) (hij : j ≠ i) (h : Act src dst j w w')
    (hi : Copied src dst i t f w) : Copied src dst i t f w' := by
  obtain ⟨-, hown, horder⟩ := act_others (Ne.symm hij) h
  obtain ⟨hcopy, hsource⟩ := act_copy hpair hi.sound (Ne.symm hij) hi.own h
  exact ⟨act_sound hpair hi.sound h, fun hm => hi.absent (horder.mp hm), hown.trans hi.own,
    hcopy _ hi.copy, hsource _ hi.source⟩

end stable

/-- The program acts as it may, whatever the others do meanwhile. If it ends early it has not
removed its original. -/
abbrev Follows (sys : System Dir) (src dst : ι → Place Dir) (i : ι) {α : Type} (p : Process α)
    (Q : α → Files Dir ι → Prop) (w : Files Dir ι) : Prop :=
  Obeys (shared sys i) (others (Act src dst) i) (Act src dst i) (fun _ w => i ∉ w.order) p Q w

section transfer

variable {sys : System Dir} {infile outfile : Bytes} {inFd outFd t x m k : Nat} {f : File}

/-- The second half of a round, when `bytes` have been read. -/
theorem write_follows (hpair : Paired src dst) {bytes : Bytes} (hread : bytes <+: f.data.drop k)
    (h : Copying src dst i inFd outFd t x (k + bytes.length) k f w) :
    Follows sys src dst i (do
      let written ← Trashcan.write outFd bytes
      if written = bytes.length then return .inl () else .halt .abort)
      (Sum.elim (fun _ w => ∃ k, Copying src dst i inFd outFd t x k k f w)
        (fun (_ : Bool) _ => False)) w := by
  simp only [Trashcan.write, library, ask_bind]
  refine obeys_call _ h (fun _ _ _ hij ha => copying_stable hpair hij ha) ?_
  intro w₁ h a w₂ ha
  obtain ⟨rfl, rfl⟩ | ⟨t', pos, g, n, hfd, hg, hn, hwritten, rfl⟩ := ha
  · rw [if_neg (by omega)]
    exact ⟨.same, obeys_halt h.absent⟩
  obtain ⟨mode, hcopied⟩ := h.copied
  rw [h.output] at hfd
  cases hfd
  rw [hcopied] at hg
  cases hg
  have htake : (bytes.take n).length = n := by
    rw [List.length_take, Nat.min_eq_left hn]
  have hdata : overwrite (f.data.take k) k (bytes.take n) = f.data.take (k + n) := by
    rw [overwrite_read ((List.take_prefix n bytes).trans hread), htake]
  have hact : Act src dst i w₁ ((w₁.setInode t ⟨f.data.take (k + n), mode⟩).setFd i outFd
      (some (.file t (k + n)))) := .write _ _ _ _ _ h.own h.source (List.take_prefix _ _)
  simp only [hdata]
  refine ⟨hact, ?_⟩
  obtain rfl | rfl := hwritten
  · rw [if_neg (by omega)]
    exact obeys_halt h.absent
  by_cases hall : (n : Int) = bytes.length
  · have hlen : n = bytes.length := by omega
    rw [if_pos hall]
    refine obeys_done ⟨k + n, act_sound hpair h.sound hact, h.absent, h.own, h.apart, ?_, ?_,
      (act_finished h.finished h.original hact).1, (act_finished h.finished h.original hact).2,
      ?_, mode, Function.update_self ..⟩
    · simp [Files.setFd, Function.update_of_ne h.apart, hlen, Files.setInode, h.input]
    · simp [Files.setFd]
    · exact (congrFun (contents_write h.own) _).trans h.source
  · rw [if_neg hall]
    exact obeys_halt h.absent

omit [DecidableEq ι] [DecidableEq Dir] in
/-- When nothing more can be read everything has been copied. -/
theorem copied_end (h : Copying src dst i inFd outFd t x k k f w) (hk : f.data.drop k = []) :
    ∃ g, Copied src dst i t g w := by
  obtain ⟨mode, hcopied⟩ := h.copied
  rw [List.take_of_length_le (List.drop_eq_nil_iff.mp hk)] at hcopied
  exact ⟨⟨f.data, mode⟩, h.sound, h.absent, h.own, hcopied, h.source⟩

theorem copyStep_follows (hpair : Paired src dst)
    (h : Copying src dst i inFd outFd t x k k f w) :
    Follows sys src dst i (copyStep inFd outFd ())
      (Sum.elim (fun _ w => ∃ k, Copying src dst i inFd outFd t x k k f w)
        (fun complete w => i ∉ w.order ∧ (complete = true → ∃ g, Copied src dst i t g w))) w := by
  simp only [copyStep, Trashcan.read, library, ask_bind]
  refine obeys_call _ h (fun _ _ _ hij ha => copying_stable hpair hij ha) ?_
  intro w₁ h a w₂ ha
  obtain ⟨rfl, rfl⟩ | ⟨x', pos, g, bytes, hfd, hg, rfl, hread, hend, rfl⟩ := ha
  · exact ⟨.same, obeys_done ⟨h.absent, fun hc => by cases hc⟩⟩
  rw [h.input] at hfd
  cases hfd
  rw [h.original] at hg
  cases hg
  have hact : Act src dst i w₁ (w₁.setFd i inFd (some (.file x (k + bytes.length)))) :=
    .descriptor _ _
  have hnext : Copying src dst i inFd outFd t x (k + bytes.length) k f
      (w₁.setFd i inFd (some (.file x (k + bytes.length)))) := by
    refine ⟨act_sound hpair h.sound hact, h.absent, h.own, h.apart, ?_, ?_, h.finished, h.original,
      h.source, h.copied⟩
    · simp [Files.setFd]
    · simp [Files.setFd, Function.update_of_ne (Ne.symm h.apart), h.output]
  refine ⟨hact, ?_⟩
  cases bytes with
  | nil => exact obeys_done ⟨h.absent, fun _ => copied_end hnext (hend rfl)⟩
  | cons b bs =>
    refine obeys_mono (write_follows hpair (hread.trans (List.take_prefix _ _)) hnext) ?_
    intro r w₃ hr
    cases r with
    | inl _ => exact hr
    | inr _ => exact hr.elim

theorem closeBoth_follows (hpair : Paired src dst) (h : Copied src dst i t f w) :
    Follows sys src dst i (closeBoth inFd outFd)
      (fun n w => i ∉ w.order ∧ (n = 0 → ∃ t f, Copied src dst i t f w)) w := by
  have hclose {w : Files Dir ι} {fd : Nat} (h : Copied src dst i t f w) :
      Copied src dst i t f (w.setFd i fd none) :=
    ⟨act_sound hpair h.sound (.descriptor fd none), h.absent, h.own, h.copy, h.source⟩
  simp only [closeBoth, close, library, ask_bind]
  refine obeys_call _ h (fun _ _ _ hij ha => copied_stable hpair hij ha) ?_
  rintro w₁ h a _ rfl
  refine ⟨.descriptor inFd none, ?_⟩
  split
  · exact obeys_done ⟨h.absent, fun hn => by cases hn⟩
  refine obeys_call _ (hclose h) (fun _ _ _ hij ha => copied_stable hpair hij ha) ?_
  rintro w₂ h b _ rfl
  refine ⟨.descriptor outFd none, ?_⟩
  split
  · exact obeys_done ⟨h.absent, fun hn => by cases hn⟩
  · exact obeys_done ⟨h.absent, fun _ => ⟨t, f, hclose h⟩⟩

theorem copyLoop_follows (hpair : Paired src dst)
    (h : Copying src dst i inFd outFd t x k k f w) :
    Follows sys src dst i (.loop (copyStep inFd outFd) () fun complete =>
      if complete then closeBoth inFd outFd else .done 3)
      (fun n w => i ∉ w.order ∧ (n = 0 → ∃ t f, Copied src dst i t f w)) w := by
  refine obeys_loop (fun _ w => ∃ k, Copying src dst i inFd outFd t x k k f w)
    (fun complete w => i ∉ w.order ∧ (complete = true → ∃ g, Copied src dst i t g w)) ⟨k, h⟩ ?_ ?_
  · rintro _ w₁ ⟨k, h⟩
    exact copyStep_follows hpair h
  rintro complete w₁ ⟨habsent, hc⟩
  cases complete with
  | true =>
    obtain ⟨g, hg⟩ := hc rfl
    exact closeBoth_follows hpair hg
  | false => exact obeys_done ⟨habsent, fun hn => by cases hn⟩

/-- The copy of a directory ends with the first call of `read`. -/
theorem unreadable_follows (hpair : Paired src dst) (h : Unreadable src dst i inFd w) :
    Follows sys src dst i (.loop (copyStep inFd outFd) () fun complete =>
      if complete then closeBoth inFd outFd else .done 3)
      (fun n w => i ∉ w.order ∧ (n = 0 → ∃ t f, Copied src dst i t f w)) w := by
  refine obeys_loop (fun _ => Unreadable src dst i inFd)
    (fun complete w => i ∉ w.order ∧ complete = false) h (fun _ w₁ h => ?_) ?_
  · simp only [copyStep, Trashcan.read, library, ask_bind]
    refine obeys_call _ h (fun _ _ _ hij ha => unreadable_stable hpair hij ha) ?_
    intro w₂ h a w₃ ha
    obtain ⟨rfl, rfl⟩ | ⟨_, _, _, _, hfd, _⟩ := ha
    · exact ⟨.same, obeys_done ⟨h.absent, rfl⟩⟩
    · rw [h.input] at hfd
      cases hfd
  · rintro complete w₁ ⟨habsent, rfl⟩
    exact obeys_done ⟨habsent, fun hn => by cases hn⟩

omit [DecidableEq ι] [DecidableEq Dir] in
/-- Where nothing is at the target the original is there, and it is what has been opened. -/
theorem usable_source (hpair : Paired src dst) (hs : Sound src dst w)
    (hx : Usable src dst i w x) (hfree : w.names (dst i) = none) :
    ∃ f, Finished w x ∧ w.inodes x = some f ∧ contents w (src i) = some f.data := by
  obtain ⟨j, hji, hj, hdst⟩ | ⟨f, hfin, hf, hd | hd⟩ := hx
  · obtain ⟨-, g, -, ⟨d, hd, -⟩ | ⟨hdir, -⟩⟩ := hs.copy j x hj
    · rw [← hpair.across i j hdst.symm, contents_free hfree] at hd
      cases hd
    · rw [← hpair.across i j hdst.symm, hfree] at hdir
      cases hdir
  · exact ⟨f, hfin, hf, hd⟩
  · rw [contents_free hfree] at hd
    cases hd

/-- What is open under a name is a file that is being copied to, a finished one, or a
directory. -/
theorem opening_file (hpair : Paired src dst) (h : Idle src dst i w) {n : Node}
    (hn : w.names (src i) = some n) :
    Opening src dst i inFd (w.setFd i inFd (some n.handle)) := by
  have hact : Act src dst i w (w.setFd i inFd (some n.handle)) := .descriptor _ _
  refine ⟨⟨act_sound hpair h.sound hact, h.none, h.absent⟩, ?_⟩
  have hfd : (w.setFd i inFd (some n.handle)).fds i inFd = some n.handle := by
    simp [Files.setFd]
  cases n with
  | directory => exact .inr ⟨hfd, hn⟩
  | file x =>
    refine .inl ⟨x, hfd, ?_⟩
    by_cases hfin : Finished w x
    · obtain ⟨f, hf⟩ := Option.ne_none_iff_exists'.mp (h.sound.named _ _ hn)
      exact .inr ⟨f, hfin, hf, .inl (contents_some.mpr ⟨x, f, hn, hfin, hf, rfl⟩)⟩
    · obtain ⟨j, hj⟩ := not_forall_not.mp hfin
      refine .inl ⟨j, ?_, hj, (h.sound.sole j x _ hj hn).symm⟩
      rintro rfl
      rw [h.none] at hj
      cases hj

theorem filecopy_follows (hpair : Paired src dst) (hsrc : sys.place infile = src i)
    (hdst : sys.place outfile = dst i) (h : Idle src dst i w) :
    Follows sys src dst i (filecopy infile outfile)
      (fun n w => i ∉ w.order ∧ (n = 0 → ∃ t f, Copied src dst i t f w)) w := by
  simp only [filecopy, openFile, Trashcan.fstat, library, ask_bind]
  refine obeys_call _ h (fun _ _ _ hij ha => idle_stable hpair hij ha) ?_
  intro w₁ h a w₂ ha
  obtain ⟨rfl, rfl⟩ | ⟨inFd, n, rfl, -, -, hn, rfl⟩ := ha
  · exact ⟨.same, obeys_done ⟨h.absent, fun hn => by cases hn⟩⟩
  refine ⟨.descriptor _ _, ?_⟩
  refine obeys_call _ (opening_file hpair h (hsrc ▸ hn))
    (fun _ _ _ hij ha => opening_stable hpair hij ha) ?_
  rintro w₂ h mode _ ⟨rfl, -⟩
  refine ⟨.same, ?_⟩
  cases mode with
  | none => exact obeys_done ⟨h.absent, fun hn => by cases hn⟩
  | some mode =>
  refine obeys_call _ h (fun _ _ _ hij ha => opening_stable hpair hij ha) ?_
  intro w₃ h a w₄ ha
  obtain ⟨rfl, rfl⟩ | ⟨outFd, t, rfl, hfd, hfree, -, ht, rfl⟩ := ha
  · exact ⟨.same, obeys_done ⟨h.absent, fun hn => by cases hn⟩⟩
  rw [hdst] at hfree ⊢
  have hopened {o : Handle} (hin : w₃.fds i inFd = some o) : inFd ≠ outFd ∧
      ((w₃.create i (dst i) t (mode.setWidth 12 &&& ~~~sys.umask)).setFd i outFd
        (some (.file t 0))).fds i inFd = some o := by
    have hne : inFd ≠ outFd := by
      rintro rfl
      rw [hin] at hfd
      cases hfd
    exact ⟨hne, by simp [Files.setFd, Function.update_of_ne hne, Files.create, Files.setInode, hin]⟩
  obtain ⟨x, hin, hx⟩ | ⟨hin, hdir⟩ := h.input
  · obtain ⟨f, hfin, hf, hd⟩ := usable_source hpair h.sound hx hfree
    have hact : Act src dst i w₃ _ := .create t (mode.setWidth 12 &&& ~~~sys.umask) outFd
      (some (.file t 0)) hfree ht h.none (.inl ⟨_, hd⟩)
    obtain ⟨hfin', hf'⟩ := act_finished hfin hf hact
    refine ⟨hact, copyLoop_follows hpair (t := t) (x := x) (f := f) (k := 0)
      ⟨act_sound hpair h.sound hact, h.absent, Function.update_self .., (hopened hin).1,
        (hopened hin).2, ?_, hfin', hf', ?_, _, Function.update_self ..⟩⟩
    · simp [Files.setFd]
    · exact (congrFun (contents_create h.sound hfree ht h.none) _).trans hd
  · have hact : Act src dst i w₃ _ := .create t (mode.setWidth 12 &&& ~~~sys.umask) outFd
      (some (.file t 0)) hfree ht h.none (.inr hdir)
    exact ⟨hact, unreadable_follows hpair ⟨act_sound hpair h.sound hact, h.absent, (hopened hin).2⟩⟩

/-- The original is removed when the copy is complete. -/
theorem transfer_follows {uncopied unremoved : Bytes} (hpair : Paired src dst)
    (hsrc : sys.place infile = src i) (hdst : sys.place outfile = dst i) (h : Idle src dst i w) :
    Follows sys src dst i (transfer infile outfile uncopied unremoved)
      (fun _ w => i ∈ w.order) w := by
  refine obeys_bind (filecopy_follows hpair hsrc hdst h) ?_
  rintro n w₁ ⟨habsent, hc⟩
  by_cases hn : n ≠ 0
  · rw [if_pos hn]
    exact obeys_halt habsent
  rw [if_neg hn]
  obtain ⟨t, f, hc⟩ := hc (not_not.mp hn)
  simp only [Trashcan.unlink, library, ask_bind]
  refine obeys_call _ hc (fun _ _ _ hij ha => copied_stable hpair hij ha) ?_
  intro w₂ hc a w₃ ha
  obtain ⟨rfl, rfl⟩ | ⟨rfl, -, s, -, rfl⟩ := ha
  · exact ⟨.same, obeys_halt hc.absent⟩
  rw [hsrc]
  exact ⟨.remove t f hc.absent hc.own hc.copy hc.source,
    obeys_done (List.mem_append_right _ (List.mem_singleton_self i))⟩

end transfer

section commands

variable {sys : System Dir} {home filename : Bytes}

theorem trashname_follows (hpair : Paired src dst) (hhome : sys.home = some home) (h₀ : 0 ∉ home)
    (h₁ : 0 ∉ filename) (h : Idle src dst i w) : Follows sys src dst i (trashname filename)
      (fun path w => path = trashPath home filename ∧ Idle src dst i w) w := by
  have hstable : ∀ j w w', j ≠ i → Act src dst j w w' → Idle src dst i w → Idle src dst i w' :=
    fun _ _ _ hij ha => idle_stable hpair hij ha
  rw [trashname]
  refine obeys_call _ h hstable ?_
  rintro w₁ h a _ ⟨rfl, ha⟩
  rw [ha rfl, hhome]
  refine ⟨.same, obeys_call _ h hstable ?_⟩
  rintro w₂ h m _ rfl
  refine ⟨.same, obeys_call _ h hstable ?_⟩
  rintro w₃ h a _ ⟨rfl, ha⟩
  rw [ha rfl, hhome]
  refine ⟨.same, obeys_call _ h hstable ?_⟩
  rintro _ h m' w₄ rfl
  have hdone : Follows sys src dst i (.done (trashPath home filename))
      (fun path w => path = trashPath home filename ∧ Idle src dst i w) w₄ := obeys_done ⟨rfl, h⟩
  rw [← filecat_twice h₀ h₁ m m'] at hdone
  exact ⟨.same, hdone⟩

theorem optMktrashdir_follows (hpair : Paired src dst) (hhome : sys.home = some home)
    (h₀ : 0 ∉ home) (h : Idle src dst i w) :
    Follows sys src dst i optMktrashdir (fun _ => Idle src dst i) w := by
  refine obeys_bind (trashname_follows hpair hhome h₀ List.not_mem_nil h) ?_
  rintro path w₁ ⟨-, h⟩
  simp only [mkdir, library, ask_bind]
  refine obeys_call _ h (fun _ _ _ hij ha => idle_stable hpair hij ha) ?_
  intro w₂ h a w₃ ha
  have hact : Act src dst i w₂ w₃ := by
    obtain rfl | ⟨p, hp, rfl⟩ := ha
    · exact .same
    · exact .directory p hp
  have hidle : Idle src dst i w₃ := by
    obtain rfl | ⟨p, hp, rfl⟩ := ha
    · exact h
    · exact ⟨act_sound hpair h.sound hact, h.none, h.absent⟩
  refine ⟨hact, ?_⟩
  split
  · exact obeys_done hidle
  · exact obeys_done hidle
  · exact obeys_halt hidle.absent

end commands

/-- The commands that lose nothing. -/
inductive Move where
  | put (name : Bytes)
  | get (name : Bytes)
  deriving DecidableEq

namespace Move

def command : Move → Command
  | put n => .put n
  | get n => .get n

/-- Where the original is. -/
def source (sys : System Dir) (home : Bytes) : Move → Place Dir
  | put n => (sys.dirAt [], n)
  | get n => (sys.dirAt (trashPath home []), n)

/-- Where the copy is created. -/
def target (sys : System Dir) (home : Bytes) : Move → Place Dir
  | put n => (sys.dirAt (trashPath home []), n)
  | get n => (sys.dirAt [], n)

end Move

/-- The finished files as a state of the machine. -/
noncomputable def store (sys : System Dir) (home : Bytes) (w : Files Dir ι) : Store where
  cwd n := contents w (sys.dirAt [], n)
  trash n := contents w (sys.dirAt (trashPath home []), n)

section moves

variable {sys : System Dir} {home prog : Bytes} {c : ι → Move}

omit [DecidableEq ι] [DecidableEq Dir] in
theorem moves_paired (hs : Setting sys home) (c : ι → Move) :
    Paired (fun i => (c i).source sys home) (fun i => (c i).target sys home) := by
  constructor <;> intro i j h <;> cases hi : c i <;> cases hj : c j <;>
    simp only [Move.source, Move.target, hi, hj, Prod.mk.injEq, true_and] at h ⊢
  all_goals first
    | exact h
    | exact absurd h.1 hs.apart
    | exact absurd h.1 (Ne.symm hs.apart)

theorem main_follows (hs : Setting sys home) (hc : ∀ i, Plain (c i).command.name)
    (h : Idle (fun i => (c i).source sys home) (fun i => (c i).target sys home) i w) :
    Follows sys (fun i => (c i).source sys home) (fun i => (c i).target sys home) i
      (main ((c i).command.argv prog)) (fun _ w => i ∈ w.order) w := by
  have hpair := moves_paired hs c
  have hplain := hc i
  cases hi : c i with
  | put n =>
    rw [hi] at hplain
    change Follows sys _ _ i (main ((Command.put n).argv prog)) _ w
    rw [main_put]
    refine obeys_bind (optMktrashdir_follows hpair hs.set hs.text h) (fun _ w₁ h => ?_)
    refine obeys_bind (trashname_follows hpair hs.set hs.text hplain.2.1 h) ?_
    rintro _ w₂ ⟨rfl, h⟩
    refine transfer_follows hpair ?_ ?_ h
    · rw [hi]
      exact place_plain hplain.1
    · rw [hi]
      exact place_trash hplain.1
  | get n =>
    rw [hi] at hplain
    change Follows sys _ _ i (main ((Command.get n).argv prog)) _ w
    rw [main_get]
    refine obeys_bind (trashname_follows hpair hs.set hs.text hplain.2.1 h) ?_
    rintro _ w₂ ⟨rfl, h⟩
    refine transfer_follows hpair ?_ ?_ h
    · rw [hi]
      exact place_trash hplain.1
    · rw [hi]
      exact place_plain hplain.1

section places

variable {g : Place Dir → Option Bytes} {D D' : Dir} {n : Bytes} {o : Option Bytes}

theorem update_here : (fun k => Function.update g (D, n) o (D, k)) =
    Function.update (fun k => g (D, k)) n o := by
  funext k
  by_cases hk : k = n
  · rw [hk, Function.update_self, Function.update_self]
  · rw [Function.update_of_ne hk, Function.update_of_ne (by simpa using hk)]

theorem update_elsewhere (h : D ≠ D') :
    (fun k => Function.update g (D', n) o (D, k)) = fun k => g (D, k) := by
  funext k
  exact Function.update_of_ne (fun he => h (Prod.mk.inj he).1) ..

end places

omit [DecidableEq ι] in
/-- To move the content of a file is what the machine does. -/
theorem store_moved (hs : Setting sys home) {w w' : Files Dir ι} {m : Move} {d : Bytes}
    (hd : contents w (m.source sys home) = some d) (hfree : contents w (m.target sys home) = none)
    (hw : contents w' = Function.update (Function.update (contents w) (m.source sys home) none)
      (m.target sys home) (some d)) :
    (store sys home w).apply m.command = some (store sys home w') := by
  cases m with
  | put n =>
    have hone : (store sys home w).cwd n = some d := hd
    have htwo : (store sys home w).trash n = none := hfree
    have hcwd : (store sys home w').cwd = Function.update (store sys home w).cwd n none := by
      simp only [store, hw, Move.source, Move.target]
      rw [update_elsewhere hs.apart, update_here]
    have htrash : (store sys home w').trash =
        Function.update (store sys home w).trash n (some d) := by
      simp only [store, hw, Move.source, Move.target]
      rw [update_here, update_elsewhere (Ne.symm hs.apart)]
    simp only [Move.command, Store.apply, hone, htwo]
    rw [← hcwd, ← htrash]
  | get n =>
    have hone : (store sys home w).trash n = some d := hd
    have htwo : (store sys home w).cwd n = none := hfree
    have hcwd : (store sys home w').cwd = Function.update (store sys home w).cwd n (some d) := by
      simp only [store, hw, Move.source, Move.target]
      rw [update_here, update_elsewhere hs.apart]
    have htrash : (store sys home w').trash = Function.update (store sys home w).trash n none := by
      simp only [store, hw, Move.source, Move.target]
      rw [update_elsewhere (Ne.symm hs.apart), update_here]
    simp only [Move.command, Store.apply, hone, htwo]
    rw [← hcwd, ← htrash]

/-- All files are finished, and no process has begun. -/
structure Fresh (w : Files Dir ι) : Prop where
  named : ∀ p t, w.names p = some (.file t) → w.inodes t ≠ none
  unfinished : ∀ i, w.unfinished i = none
  order : w.order = []

omit [DecidableEq ι] [DecidableEq Dir] in
theorem fresh_sound (h : Fresh w) (src dst : ι → Place Dir) : Sound src dst w := by
  have hnone {j : ι} {t : Nat} (hj : w.unfinished j = some t) : False := by
    rw [h.unfinished] at hj
    cases hj
  exact ⟨h.named, fun _ _ _ hj => (hnone hj).elim, fun _ _ _ hj => (hnone hj).elim,
    fun _ _ hj => (hnone hj).elim⟩

omit [DecidableEq ι] [DecidableEq Dir] in
theorem fresh_idle (h : Fresh w) (src dst : ι → Place Dir) (i : ι) : Idle src dst i w where
  sound := fresh_sound h src dst
  none := h.unfinished i
  absent := by
    rw [h.order]
    exact List.not_mem_nil

/-- The files are what the machine makes of the finished moves, one after the other. -/
structure Linearized (sys : System Dir) (home : Bytes) (c : ι → Move) (s : Store)
    (w : Files Dir ι) : Prop where
  sound : Sound (fun i => (c i).source sys home) (fun i => (c i).target sys home) w
  once : w.order.Nodup
  runs : (w.order.map (fun i => (c i).command)).foldlM Store.apply s = some (store sys home w)

theorem act_linearized (hs : Setting sys home) {s : Store} {w w' : Files Dir ι}
    (hw : Linearized sys home c s w)
    (h : Act (fun i => (c i).source sys home) (fun i => (c i).target sys home) i w w') :
    Linearized sys home c s w' := by
  refine ⟨act_sound (moves_paired hs c) hw.sound h, ?_, ?_⟩ <;>
    obtain ⟨horder, hsame⟩ | ⟨d, habsent, horder, hd, hfree, hmoved⟩ := act_contents hw.sound h
  · exact horder ▸ hw.once
  · rw [horder]
    exact (List.perm_append_singleton i w.order).nodup_iff.mpr
      (List.nodup_cons.mpr ⟨habsent, hw.once⟩)
  · have hstore : store sys home w' = store sys home w := by
      simp only [store, hsame]
    rw [horder, hstore]
    exact hw.runs
  · rw [horder, List.map_append, List.foldlM_append, hw.runs]
    simp only [List.map_cons, List.map_nil, List.foldlM_cons, List.foldlM_nil]
    exact (congrArg (· >>= pure) (store_moved hs hd hfree hmoved)).trans rfl

omit [DecidableEq Dir] in
theorem moves_swap {s t : Store} {ms : List Move} {n : Bytes}
    (h : (ms.map Move.command).foldlM Store.apply s = some t) : s.Swaps t n := by
  induction ms generalizing s with
  | nil =>
    cases h
    exact .inl ⟨rfl, rfl⟩
  | cons m ms ih =>
    obtain ⟨s₁, hs₁, hrest⟩ := Option.bind_eq_some_iff.mp h
    refine swaps_trans (apply_swaps ?_ hs₁) (ih hrest)
    cases m <;> rintro ⟨⟩

/-- Processes that put files into the trash or get them back may run at the same time, call
for call in any order, fail anywhere and be killed. The files are always what the machine
makes of the moves that have come to their end, each taken as one step, in an order that
agrees with the order in time: a process that has returned is among them, one that has
reported an error is not. Beyond that there are only unfinished copies of files that are still
in their place. So no content is ever lost or doubled. -/
theorem together_linearized (hs : Setting sys home) (prog : Bytes) (c : ι → Move)
    (hc : ∀ i, Plain (c i).command.name) (hw : Fresh w)
    (C C' : Configuration Call Answer Exit Unit (Files Dir ι) ι)
    (h : Reachable (shared sys) ⟨fun i => main ((c i).command.argv prog), w⟩ C)
    (h' : Reachable (shared sys) C C') :
    Linearized sys home c (store sys home w) C.world ∧
      (∀ i, returned (C.programs i) = some () → i ∈ C.world.order) ∧
      (∀ i e, halted (C.programs i) = some e → i ∉ C.world.order) ∧
      C.world.order <+: C'.world.order ∧
      ∀ n, (store sys home w).Swaps (store sys home C.world) n := by
  have hidle := fresh_idle hw (fun i => (c i).source sys home) (fun i => (c i).target sys home)
  have hall : AllObey (shared sys)
      (Act (fun i => (c i).source sys home) (fun i => (c i).target sys home))
      (fun i _ w => i ∉ w.order) (fun i _ w => i ∈ w.order)
      ⟨fun i => main ((c i).command.argv prog), w⟩ := fun i => main_follows hs hc (hidle i)
  have hC := (reachable_obeys hall h).1
  have hlin : Linearized sys home c (store sys home w) C.world := by
    refine reachable_invariant hall h (fun i _ _ ha hw => act_linearized hs hw ha) ?_
    refine ⟨fresh_sound hw _ _, ?_, ?_⟩
    · simp only [hw.order, List.nodup_nil]
    · simp only [hw.order, List.map_nil, List.foldlM_nil]
      rfl
  refine ⟨hlin, fun i hi => ?_, fun i e he => ?_, ?_, fun n => ?_⟩
  · obtain ⟨w₀, hothers, hm⟩ := returned_obeys (hC i) hi
    exact others_stable (F := fun w => i ∈ w.order)
      (fun _ _ _ hij ha => (act_others (Ne.symm hij) ha).2.2.mpr) hothers hm
  · obtain ⟨w₀, hothers, hm⟩ := halted_obeys (hC i) he
    exact others_stable (F := fun w => i ∉ w.order)
      (fun _ _ _ hij ha hm h => hm ((act_others (Ne.symm hij) ha).2.2.mp h)) hothers hm
  · exact reachable_invariant hC h' (I := fun w => C.world.order <+: w.order)
      (fun _ _ _ ha hp => hp.trans (act_order ha)) List.prefix_rfl
  · have hruns := hlin.runs
    rw [← Function.comp_def, ← List.map_map] at hruns
    exact moves_swap hruns

/-- One process puts the only file into the trash, another one gets it back. -/
def Files.single : Files Bytes Bool where
  names p := if p = ([], ascii "a") then some (.file 0) else none
  inodes t := if t = 0 then some ⟨ascii "text", 0o644⟩ else none
  fds _ _ := none
  unfinished _ := none
  order := []

theorem single_fresh : Fresh Files.single where
  named p t h := by
    simp only [Files.single] at h ⊢
    split at h
    · cases h
      decide
    · cases h
  unfinished _ := rfl
  order := rfl

/-- A system whose calls succeed wherever they can. -/
def cooperate (i : Bool) (w : Files Bytes Bool) : (c : Call) →
    Option (Answer c × Files Bytes Bool)
  | .getenv _ => some (desk.home, w)
  | .array n => some (desk.array n, w)
  | .mkdir path _ => if w.names (desk.place path) = none then
      some (.ok (), w.mkdir (desk.place path)) else some (.error .eexist, w)
  | .open path .rdonly _ => match w.names (desk.place path) with
    | none => some (none, w)
    | some n => if path ≠ [] ∧ w.fds i 3 = none then
        some (some 3, w.setFd i 3 (some n.handle)) else some (none, w)
  | .open path .createExcl mode =>
    let t := i.toNat + 1
    if w.fds i 4 = none ∧ w.names (desk.place path) = none ∧ Proper (desk.place path).2 ∧
        w.inodes t = none then
      some (some 4, (w.create i (desk.place path) t (mode.setWidth 12 &&& ~~~desk.umask)).setFd i 4
        (some (.file t 0)))
    else some (none, w)
  | .fstat fd => match w.fds i fd with
    | some (.file t _) => (w.inodes t).map (fun f => (some (regular f.mode), w))
    | some .directory | none => some (none, w)
  | .read fd count => match w.fds i fd with
    | some (.file t pos) => match w.inodes t with
      | some f =>
        let bytes := (f.data.drop pos).take count
        if bytes = [] ∧ f.data.drop pos ≠ [] then some (none, w)
        else some (some bytes, w.setFd i fd (some (.file t (pos + bytes.length))))
      | none => some (none, w)
    | some .directory | none => some (none, w)
  | .write fd bytes => match w.fds i fd with
    | some (.file t pos) => match w.inodes t with
      | some f => some (bytes.length,
        (w.setInode t { f with data := overwrite f.data pos (bytes.take bytes.length) }).setFd i fd
          (some (.file t (pos + bytes.length))))
      | none => some (-1, w)
    | some .directory | none => some (-1, w)
  | .close fd => some (0, w.setFd i fd none)
  | .unlink path => match w.names (desk.place path) with
    | some (.file _) =>
      if path = [] then some (-1, w) else some (0, w.unlink i (desk.place path))
    | some .directory | none => some (-1, w)

theorem cooperate_allowed (i : Bool) (w : Files Bytes Bool) (c : Call) (a : Answer c)
    (w' : Files Bytes Bool) (h : cooperate i w c = some (a, w')) : shared desk i w c a w' := by
  cases c with
  | getenv name =>
    cases h
    exact ⟨rfl, fun _ => rfl⟩
  | array n =>
    cases h
    rfl
  | mkdir path mode =>
    simp only [cooperate] at h
    split at h
    · next hp =>
      cases h
      exact .inr ⟨_, hp, rfl⟩
    · cases h
      exact .inl rfl
  | «open» path flags mode =>
    cases flags with
    | rdonly =>
      simp only [cooperate] at h
      split at h
      · cases h
        exact .inl ⟨rfl, rfl⟩
      · next n hn =>
        split at h
        · next hok =>
          cases h
          exact .inr ⟨3, n, rfl, hok.1, hok.2, hn, rfl⟩
        · cases h
          exact .inl ⟨rfl, rfl⟩
    | createExcl =>
      simp only [cooperate] at h
      split at h
      · next hok =>
        cases h
        exact .inr ⟨4, _, rfl, hok.1, hok.2.1, hok.2.2.1, hok.2.2.2, rfl⟩
      · cases h
        exact .inl ⟨rfl, rfl⟩
  | fstat fd =>
    simp only [cooperate] at h
    split at h
    · next t pos hfd =>
      obtain ⟨f, hf, he⟩ := Option.map_eq_some_iff.mp h
      cases he
      refine ⟨rfl, fun t' pos' f' hfd' hf' => .inr ?_⟩
      cases hfd.symm.trans hfd'
      cases hf.symm.trans hf'
      rfl
    all_goals
      cases h
      exact ⟨rfl, fun _ _ _ _ _ => .inl rfl⟩
  | read fd count =>
    simp only [cooperate] at h
    split at h
    · next t pos hfd =>
      split at h
      · next f hf =>
        split at h
        · cases h
          exact .inl ⟨rfl, rfl⟩
        · next hok =>
          cases h
          exact .inr ⟨t, pos, f, _, hfd, hf, rfl, List.prefix_rfl,
            fun he => not_not.mp (fun hne => hok ⟨he, hne⟩), rfl⟩
      · cases h
        exact .inl ⟨rfl, rfl⟩
    all_goals
      cases h
      exact .inl ⟨rfl, rfl⟩
  | write fd bytes =>
    simp only [cooperate] at h
    split at h
    · next t pos hfd =>
      split at h
      · next f hf =>
        cases h
        exact .inr ⟨t, pos, f, _, hfd, hf, Nat.le_refl _, .inr rfl, rfl⟩
      · cases h
        exact .inl ⟨rfl, rfl⟩
    all_goals
      cases h
      exact .inl ⟨rfl, rfl⟩
  | close fd =>
    cases h
    rfl
  | unlink path =>
    simp only [cooperate] at h
    split at h
    · next t ht =>
      split at h
      · cases h
        exact .inl ⟨rfl, rfl⟩
      · next hpath =>
        cases h
        exact .inr ⟨rfl, hpath, t, ht, rfl⟩
    all_goals
      cases h
      exact .inl ⟨rfl, rfl⟩

def opposite (i : Bool) : Move := bif i then .get (ascii "a") else .put (ascii "a")

/-- The second process starts first and waits until the first one has come to its end. -/
def handover : Configuration Call Answer Exit Unit (Files Bytes Bool) Bool :=
  (List.replicate 3 true ++ List.replicate 30 false ++ List.replicate 30 true).foldl
    (fun C i => advance cooperate i C)
    ⟨fun i => main ((opposite i).command.argv []), Files.single⟩

theorem together_linearized_desk : Linearized desk (ascii "/home/a") opposite
    (store desk (ascii "/home/a") Files.single) handover.world ∧
      handover.world.order = [false, true] :=
  ⟨(together_linearized ⟨rfl, by decide, by decide⟩ [] opposite (by decide) single_fresh _ _
    (schedule_reachable cooperate_allowed _ _) .refl).1, by decide +kernel⟩

end moves

end Ti3.Trash.Together
