import Ti3.Library.RelyGuarantee
import Ti3.Trash.Machine

namespace Ti3.Trash.Shared

open Library.CString Library.Interaction
open Trashcan Directories

variable {Dir ι : Type}

/-- What a name stands for. -/
inductive Node where
  | file (inode : Nat)
  | directory
  deriving DecidableEq

/-- What a descriptor refers to. -/
inductive Handle where
  | file (inode pos : Nat)
  | directory
  deriving DecidableEq

def Node.handle : Node → Handle
  | .file t => .file t 0
  | .directory => .directory

/-- Directories that several processes work on. A file lives as long as a process
has it open, also without a name. Two variables keep what has happened: the file a
process has created without having removed the original yet, and the processes that
have removed theirs, in their order. -/
structure Files (Dir ι : Type) where
  names : Place Dir → Option Node
  inodes : Nat → Option File
  fds : ι → Nat → Option Handle
  unfinished : ι → Option Nat
  order : List ι

namespace Files

variable [DecidableEq ι]

def setFd (w : Files Dir ι) (i : ι) (fd : Nat) (o : Option Handle) : Files Dir ι :=
  { w with fds := Function.update w.fds i (Function.update (w.fds i) fd o) }

def setInode (w : Files Dir ι) (t : Nat) (f : File) : Files Dir ι :=
  { w with inodes := Function.update w.inodes t (some f) }

variable [DecidableEq Dir]

def mkdir (w : Files Dir ι) (p : Place Dir) : Files Dir ι :=
  { w with names := Function.update w.names p (some .directory) }

def create (w : Files Dir ι) (i : ι) (p : Place Dir) (t : Nat) (mode : BitVec 12) : Files Dir ι :=
  { w.setInode t ⟨[], mode⟩ with
    names := Function.update w.names p (some (.file t))
    unfinished := Function.update w.unfinished i (some t) }

def unlink (w : Files Dir ι) (i : ι) (p : Place Dir) : Files Dir ι :=
  { w with
    names := Function.update w.names p none
    unfinished := Function.update w.unfinished i none
    order := w.order ++ [i] }

end Files

/-- The library for one of several processes. Any call may fail, reads may be short and
writes partial. -/
def shared [DecidableEq ι] [DecidableEq Dir] (sys : System Dir) (i : ι) :
    Environment Call Answer (Files Dir ι) := fun w c a w' =>
  match c, a with
  | .getenv name, a => w' = w ∧ (name = ascii "HOME" → a = sys.home)
  | .array _, _ => w' = w
  | .mkdir _ _, _ => w' = w ∨ ∃ p, w.names p = none ∧ w' = w.mkdir p
  | .open path .rdonly _, a => (a = none ∧ w' = w) ∨ ∃ fd n, a = some fd ∧ path ≠ [] ∧
      w.fds i fd = none ∧ w.names (sys.place path) = some n ∧ w' = w.setFd i fd (some n.handle)
  | .open path .createExcl mode, a => (a = none ∧ w' = w) ∨ ∃ fd t, a = some fd ∧
      w.fds i fd = none ∧ w.names (sys.place path) = none ∧ Proper (sys.place path).2 ∧
        w.inodes t = none ∧
          w' = (w.create i (sys.place path) t (mode.setWidth 12 &&& ~~~sys.umask)).setFd i fd
            (some (.file t 0))
  | .fstat fd, a => w' = w ∧ ∀ t pos f, w.fds i fd = some (.file t pos) → w.inodes t = some f →
      a = none ∨ a = some (regular f.mode)
  | .read fd count, a => (a = none ∧ w' = w) ∨ ∃ t pos f bytes,
      w.fds i fd = some (.file t pos) ∧ w.inodes t = some f ∧ a = some bytes ∧
        bytes <+: (f.data.drop pos).take count ∧ (bytes = [] → f.data.drop pos = []) ∧
          w' = w.setFd i fd (some (.file t (pos + bytes.length)))
  | .write fd bytes, a => (a = -1 ∧ w' = w) ∨ ∃ t pos f k,
      w.fds i fd = some (.file t pos) ∧ w.inodes t = some f ∧ k ≤ bytes.length ∧
        (a = -1 ∨ a = (k : Int)) ∧
          w' = (w.setInode t { f with data := overwrite f.data pos (bytes.take k) }).setFd i fd
            (some (.file t (pos + k)))
  | .close fd, _ => w' = w.setFd i fd none
  | .unlink path, a => (a = -1 ∧ w' = w) ∨ (a = 0 ∧ path ≠ [] ∧ ∃ t,
      w.names (sys.place path) = some (.file t) ∧ w' = w.unlink i (sys.place path))

/-- No process is still copying into the file. -/
def Finished (w : Files Dir ι) (t : Nat) : Prop := ∀ i, w.unfinished i ≠ some t

open Classical in
/-- The contents of the finished files. -/
noncomputable def contents (w : Files Dir ι) (p : Place Dir) : Option Bytes :=
  match w.names p with
  | some (.file t) => if Finished w t then (w.inodes t).map File.data else none
  | _ => none

section contents

variable {w w' : Files Dir ι} {p : Place Dir} {d : Bytes} {t : Nat} {f : File}

theorem contents_some : contents w p = some d ↔
    ∃ t f, w.names p = some (.file t) ∧ Finished w t ∧ w.inodes t = some f ∧ f.data = d := by
  rw [contents]
  constructor
  · intro h
    split at h
    · next t hp =>
      split at h
      · next ht =>
        obtain ⟨f, hf, hd⟩ := Option.map_eq_some_iff.mp h
        exact ⟨t, f, hp, ht, hf, hd⟩
      · cases h
    · cases h
  · rintro ⟨t, f, hp, ht, hf, rfl⟩
    simp only [hp, if_pos ht, hf, Option.map_some]

theorem contents_free (h : w.names p = none) : contents w p = none := by
  simp only [contents, h]

theorem contents_unfinished {i : ι} (h : w.unfinished i = some t)
    (hp : w.names p = some (.file t)) : contents w p = none := by
  have ht : ¬ Finished w t := fun hf => hf i h
  simp only [contents, hp, if_neg ht]

theorem contents_congr (hp : w'.names p = w.names p)
    (h : ∀ t, w.names p = some (.file t) →
      (Finished w' t ↔ Finished w t) ∧ (Finished w t → w'.inodes t = w.inodes t)) :
    contents w' p = contents w p := by
  rw [contents, contents, hp]
  split
  · next t ht =>
    obtain ⟨hf, hi⟩ := h t ht
    by_cases hfin : Finished w t
    · rw [if_pos hfin, if_pos (hf.mpr hfin), hi hfin]
    · rw [if_neg hfin, if_neg (fun h => hfin (hf.mp h))]
  · rfl

end contents

/-- Processes that have a place in common move between the same two places. -/
structure Paired (src dst : ι → Place Dir) : Prop where
  same : ∀ i j, src i = src j → dst i = dst j
  across : ∀ i j, src i = dst j → dst i = src j

/-- Names stand for files that exist, and an unfinished copy for a beginning of what
it is a copy of. -/
structure Sound (src dst : ι → Place Dir) (w : Files Dir ι) : Prop where
  named : ∀ p t, w.names p = some (.file t) → w.inodes t ≠ none
  sole : ∀ i t p, w.unfinished i = some t → w.names p = some (.file t) → p = dst i
  distinct : ∀ i j t, w.unfinished i = some t → w.unfinished j = some t → i = j
  copy : ∀ i t, w.unfinished i = some t → w.names (dst i) = some (.file t) ∧
    ∃ f, w.inodes t = some f ∧ ((∃ d, contents w (src i) = some d ∧ f.data <+: d) ∨
      (w.names (src i) = some .directory ∧ f.data = []))

/-- What a process does to the files: it makes a directory, creates its copy, adds
to it, and removes the original of the complete copy. -/
inductive Act [DecidableEq ι] [DecidableEq Dir] (src dst : ι → Place Dir) (i : ι)
    (w : Files Dir ι) : Files Dir ι → Prop
  | same : Act src dst i w w
  | descriptor (fd : Nat) (o : Option Handle) : Act src dst i w (w.setFd i fd o)
  | directory (p : Place Dir) : w.names p = none → Act src dst i w (w.mkdir p)
  | create (t : Nat) (mode : BitVec 12) (fd : Nat) (o : Option Handle) :
      w.names (dst i) = none → w.inodes t = none → w.unfinished i = none →
        ((∃ d, contents w (src i) = some d) ∨ w.names (src i) = some .directory) →
          Act src dst i w ((w.create i (dst i) t mode).setFd i fd o)
  | write (t : Nat) (f : File) (d : Bytes) (fd : Nat) (o : Option Handle) :
      w.unfinished i = some t → contents w (src i) = some d → f.data <+: d →
        Act src dst i w ((w.setInode t f).setFd i fd o)
  | remove (t : Nat) (f : File) : i ∉ w.order → w.unfinished i = some t → w.inodes t = some f →
      contents w (src i) = some f.data → Act src dst i w (w.unlink i (src i))

section act

variable [DecidableEq ι] [DecidableEq Dir] {src dst : ι → Place Dir} {i j : ι}
variable {w w' : Files Dir ι} {p : Place Dir} {d : Bytes} {t x : Nat} {f : File}

/-- A copy that has just been created does not count. -/
theorem contents_create {mode : BitVec 12} (hs : Sound src dst w) (hp : w.names (dst i) = none)
    (ht : w.inodes t = none) (hi : w.unfinished i = none) :
    contents (w.create i (dst i) t mode) = contents w := by
  have hnew : (w.create i (dst i) t mode).unfinished i = some t := Function.update_self ..
  funext p
  by_cases he : p = dst i
  · subst he
    rw [contents_free hp]
    exact contents_unfinished hnew (Function.update_self ..)
  · refine contents_congr (Function.update_of_ne he ..) (fun s hs' => ?_)
    have hne : s ≠ t := by
      rintro rfl
      exact hs.named p s hs' ht
    refine ⟨⟨fun h k hk => ?_, fun h k => ?_⟩, fun _ => Function.update_of_ne hne ..⟩
    · have hki : k ≠ i := by
        rintro rfl
        rw [hi] at hk
        cases hk
      exact h k ((Function.update_of_ne hki ..).trans hk)
    · by_cases hki : k = i
      · rw [hki, hnew]
        exact fun h => hne (Option.some.inj h).symm
      · exact fun hk => h k ((Function.update_of_ne hki ..).symm.trans hk)

omit [DecidableEq ι] [DecidableEq Dir] in
theorem contents_write (h : w.unfinished i = some t) :
    contents (w.setInode t f) = contents w := by
  funext p
  refine contents_congr rfl (fun s _ => ⟨Iff.rfl, fun hfin => ?_⟩)
  have hne : s ≠ t := by
    rintro rfl
    exact hfin i h
  exact Function.update_of_ne hne ..

/-- With the original gone the copy takes its place. -/
theorem contents_unlink (hs : Sound src dst w) (hi : w.unfinished i = some t)
    (hf : w.inodes t = some f) (hd : contents w (src i) = some d) :
    contents (w.unlink i (src i)) =
      Function.update (Function.update (contents w) (src i) none) (dst i) (some f.data) := by
  have hdst := (hs.copy i t hi).1
  have happart : dst i ≠ src i := by
    intro he
    rw [← he, contents_unfinished hi hdst] at hd
    cases hd
  funext p
  by_cases hp : p = dst i
  · subst hp
    rw [Function.update_self]
    refine contents_some.mpr ⟨t, f, (Function.update_of_ne happart ..).trans hdst, ?_, hf, rfl⟩
    intro k hk
    by_cases hki : k = i
    · rw [hki] at hk
      cases (Function.update_self ..).symm.trans hk
    · exact hki (hs.distinct k i t ((Function.update_of_ne hki ..).symm.trans hk) hi)
  rw [Function.update_of_ne hp]
  by_cases hp' : p = src i
  · subst hp'
    rw [Function.update_self]
    exact contents_free (Function.update_self ..)
  rw [Function.update_of_ne hp']
  refine contents_congr (Function.update_of_ne hp' ..) (fun s hname => ⟨?_, fun _ => rfl⟩)
  refine ⟨fun h k hk => ?_, fun h k hk => ?_⟩
  · by_cases hki : k = i
    · subst hki
      exact hp (hs.sole k s p hk hname)
    · exact h k ((Function.update_of_ne hki ..).trans hk)
  · by_cases hki : k = i
    · rw [hki] at hk
      cases (Function.update_self ..).symm.trans hk
    · exact h k ((Function.update_of_ne hki ..).symm.trans hk)

omit [DecidableEq ι] in
/-- Directories are made where nothing was. -/
theorem contents_mkdir (hp : w.names p = none) : contents (w.mkdir p) = contents w := by
  funext q
  by_cases hq : q = p
  · have hnew : (w.mkdir p).names p = some .directory := Function.update_self ..
    rw [hq, contents_free hp, contents, hnew]
  · exact contents_congr (Function.update_of_ne hq ..) (fun _ _ => ⟨Iff.rfl, fun _ => rfl⟩)

/-- Only the removal of an original changes the contents: it moves them. -/
theorem act_contents (hs : Sound src dst w) (h : Act src dst i w w') :
    (w'.order = w.order ∧ contents w' = contents w) ∨
      ∃ d, i ∉ w.order ∧ w'.order = w.order ++ [i] ∧ contents w (src i) = some d ∧
        contents w (dst i) = none ∧ contents w' =
          Function.update (Function.update (contents w) (src i) none) (dst i) (some d) := by
  cases h with
  | same | descriptor => exact .inl ⟨rfl, rfl⟩
  | directory p hp => exact .inl ⟨rfl, contents_mkdir hp⟩
  | create t mode fd o hp ht hi _ => exact .inl ⟨rfl, contents_create hs hp ht hi⟩
  | write t f d fd o hi _ _ => exact .inl ⟨rfl, contents_write hi⟩
  | remove t f habsent hi hf hd =>
    exact .inr ⟨f.data, habsent, rfl, hd, contents_unfinished hi (hs.copy i t hi).1,
      contents_unlink hs hi hf hd⟩

omit [DecidableEq ι] in
theorem sound_mkdir (hs : Sound src dst w) (hp : w.names p = none) :
    Sound src dst (w.mkdir p) := by
  have hfile {q : Place Dir} {s : Nat} (h : (w.mkdir p).names q = some (.file s)) :
      w.names q = some (.file s) := by
    by_cases hq : q = p
    · rw [hq] at h
      cases (Function.update_self ..).symm.trans h
    · exact (Function.update_of_ne hq ..).symm.trans h
  have hold {q : Place Dir} {n : Node} (h : w.names q = some n) :
      (w.mkdir p).names q = some n := by
    have hq : q ≠ p := by
      rintro rfl
      rw [hp] at h
      cases h
    exact (Function.update_of_ne hq ..).trans h
  refine ⟨fun q s h => hs.named q s (hfile h), fun k s q hk h => hs.sole k s q hk (hfile h),
    hs.distinct, fun k s hk => ?_⟩
  obtain ⟨hname, f, hf, hd⟩ := hs.copy k s hk
  rw [contents_mkdir hp]
  exact ⟨hold hname, f, hf, hd.imp_right (fun h => ⟨hold h.1, h.2⟩)⟩

theorem sound_create {mode : BitVec 12} (hs : Sound src dst w) (hp : w.names (dst i) = none)
    (ht : w.inodes t = none) (hi : w.unfinished i = none)
    (hsrc : (∃ d, contents w (src i) = some d) ∨ w.names (src i) = some .directory) :
    Sound src dst (w.create i (dst i) t mode) := by
  have hold {q : Place Dir} {n : Node} (h : w.names q = some n) :
      (w.create i (dst i) t mode).names q = some n := by
    have hq : q ≠ dst i := by
      rintro rfl
      rw [hp] at h
      cases h
    exact (Function.update_of_ne hq ..).trans h
  have hname {q : Place Dir} {s : Nat}
      (h : (w.create i (dst i) t mode).names q = some (.file s)) :
      (q = dst i ∧ s = t) ∨ w.names q = some (.file s) := by
    by_cases hq : q = dst i
    · rw [hq] at h
      cases (Function.update_self ..).symm.trans h
      exact .inl ⟨hq, rfl⟩
    · exact .inr ((Function.update_of_ne hq ..).symm.trans h)
  have hclaim {k : ι} {s : Nat} (h : (w.create i (dst i) t mode).unfinished k = some s) :
      (k = i ∧ s = t) ∨ (s ≠ t ∧ w.unfinished k = some s) := by
    by_cases hk : k = i
    · rw [hk] at h
      cases (Function.update_self ..).symm.trans h
      exact .inl ⟨hk, rfl⟩
    · have h := (Function.update_of_ne hk ..).symm.trans h
      obtain ⟨-, f, hf, -⟩ := hs.copy k s h
      refine .inr ⟨?_, h⟩
      rintro rfl
      rw [ht] at hf
      cases hf
  refine ⟨fun q s h => ?_, fun k s q hk h => ?_, fun k l s hk hl => ?_, fun k s hk => ?_⟩
  · by_cases hst : s = t
    · rw [hst]
      exact fun he => by cases (Function.update_self ..).symm.trans he
    · obtain ⟨-, he⟩ | h := hname h
      · exact absurd he hst
      · exact fun he => hs.named q s h ((Function.update_of_ne hst ..).symm.trans he)
  · obtain ⟨rfl, rfl⟩ | ⟨hst, hk⟩ := hclaim hk
    · obtain ⟨hq, -⟩ | h := hname h
      · exact hq
      · exact absurd ht (hs.named q s h)
    · obtain ⟨-, he⟩ | h := hname h
      · exact absurd he hst
      · exact hs.sole k s q hk h
  · obtain ⟨rfl, rfl⟩ | ⟨hst, hk⟩ := hclaim hk <;> obtain ⟨rfl, he⟩ | ⟨hst', hl⟩ := hclaim hl
    · rfl
    · exact absurd rfl hst'
    · exact absurd he hst
    · exact hs.distinct k l s hk hl
  · rw [contents_create hs hp ht hi]
    obtain ⟨rfl, rfl⟩ | ⟨hst, hk⟩ := hclaim hk
    · refine ⟨Function.update_self .., ⟨[], mode⟩, Function.update_self .., ?_⟩
      obtain ⟨d, hd⟩ | hdir := hsrc
      · exact .inl ⟨d, hd, List.nil_prefix⟩
      · exact .inr ⟨hold hdir, rfl⟩
    · obtain ⟨hname, f, hf, hd⟩ := hs.copy k s hk
      exact ⟨hold hname, f, (Function.update_of_ne hst ..).trans hf,
        hd.imp_right (fun h => ⟨hold h.1, h.2⟩)⟩

omit [DecidableEq ι] [DecidableEq Dir] in
theorem sound_write (hs : Sound src dst w) (hi : w.unfinished i = some t)
    (hd : contents w (src i) = some d) (hf : f.data <+: d) : Sound src dst (w.setInode t f) := by
  refine ⟨fun q s h => ?_, hs.sole, hs.distinct, fun k s hk => ?_⟩
  · by_cases hst : s = t
    · rw [hst]
      exact fun he => by cases (Function.update_self ..).symm.trans he
    · exact fun he => hs.named q s h ((Function.update_of_ne hst ..).symm.trans he)
  · rw [contents_write hi]
    obtain ⟨hname, g, hg, hcopy⟩ := hs.copy k s hk
    by_cases hst : s = t
    · subst hst
      obtain rfl := hs.distinct k i s hk hi
      exact ⟨hname, f, Function.update_self .., .inl ⟨d, hd, hf⟩⟩
    · exact ⟨hname, g, (Function.update_of_ne hst ..).trans hg, hcopy⟩

theorem sound_unlink (hpair : Paired src dst) (hs : Sound src dst w)
    (hi : w.unfinished i = some t) (hf : w.inodes t = some f)
    (hd : contents w (src i) = some f.data) : Sound src dst (w.unlink i (src i)) := by
  have hname {q : Place Dir} {n : Node} (h : (w.unlink i (src i)).names q = some n) :
      w.names q = some n := by
    by_cases hq : q = src i
    · rw [hq] at h
      cases (Function.update_self ..).symm.trans h
    · exact (Function.update_of_ne hq ..).symm.trans h
  have hclaim {k : ι} {s : Nat} (h : (w.unlink i (src i)).unfinished k = some s) :
      k ≠ i ∧ w.unfinished k = some s := by
    by_cases hk : k = i
    · rw [hk] at h
      cases (Function.update_self ..).symm.trans h
    · exact ⟨hk, (Function.update_of_ne hk ..).symm.trans h⟩
  refine ⟨fun q s h => hs.named q s (hname h), fun k s q hk h =>
    hs.sole k s q (hclaim hk).2 (hname h), fun k l s hk hl =>
    hs.distinct k l s (hclaim hk).2 (hclaim hl).2, fun k s hk => ?_⟩
  obtain ⟨hne, hk⟩ := hclaim hk
  obtain ⟨hdst, g, hg, hcopy⟩ := hs.copy k s hk
  have hnone : contents w (dst k) = none := contents_unfinished hk hdst
  have hkept : dst k ≠ src i := by
    intro he
    rw [he, hd] at hnone
    cases hnone
  refine ⟨(Function.update_of_ne hkept ..).trans hdst, g, hg, ?_⟩
  obtain ⟨c, hc, hpre⟩ | ⟨hdir, hnil⟩ := hcopy
  · refine .inl ⟨c, ?_, hpre⟩
    have hsrc : src k ≠ src i := by
      intro he
      have hsame := (hs.copy i t hi).1
      rw [← hpair.same k i he, hdst] at hsame
      have hst : s = t := by simpa using hsame
      exact hne (hs.distinct k i t (hst ▸ hk) hi)
    have hcross : src k ≠ dst i := by
      intro he
      rw [he, contents_unfinished hi (hs.copy i t hi).1] at hc
      cases hc
    rw [contents_unlink hs hi hf hd, Function.update_of_ne hcross, Function.update_of_ne hsrc, hc]
  · refine .inr ⟨(Function.update_of_ne ?_ ..).trans hdir, hnil⟩
    intro he
    obtain ⟨s', f', hfile, -⟩ := contents_some.mp hd
    rw [← he, hdir] at hfile
    cases hfile

theorem act_sound (hpair : Paired src dst) (hs : Sound src dst w) (h : Act src dst i w w') :
    Sound src dst w' := by
  cases h with
  | same => exact hs
  | descriptor fd o => exact ⟨hs.named, hs.sole, hs.distinct, hs.copy⟩
  | directory p hp => exact sound_mkdir hs hp
  | create t mode fd o hp ht hi hsrc =>
    have hc : Sound src dst (w.create i (dst i) t mode) := sound_create hs hp ht hi hsrc
    exact ⟨hc.named, hc.sole, hc.distinct, hc.copy⟩
  | write t f d fd o hi hd hf =>
    have hw := sound_write hs hi hd hf
    exact ⟨hw.named, hw.sole, hw.distinct, hw.copy⟩
  | remove t f _ hi hf hd => exact sound_unlink hpair hs hi hf hd

/-- What belongs to one process stays as it is in the steps of the others. -/
theorem act_others (hij : j ≠ i) (h : Act src dst i w w') :
    w'.fds j = w.fds j ∧ w'.unfinished j = w.unfinished j ∧ (j ∈ w'.order ↔ j ∈ w.order) := by
  cases h with
  | same | directory => exact ⟨rfl, rfl, Iff.rfl⟩
  | descriptor | write => exact ⟨Function.update_of_ne hij .., rfl, Iff.rfl⟩
  | create =>
    exact ⟨Function.update_of_ne hij .., Function.update_of_ne hij .., Iff.rfl⟩
  | remove =>
    refine ⟨rfl, Function.update_of_ne hij .., ?_⟩
    change j ∈ w.order ++ [i] ↔ j ∈ w.order
    rw [List.mem_append, List.mem_singleton, or_iff_left hij]

theorem act_order (h : Act src dst i w w') : w.order <+: w'.order := by
  cases h with
  | same | directory | descriptor | write | create => exact List.prefix_rfl
  | remove => exact List.prefix_append ..

/-- Finished files are left alone as long as they are open. -/
theorem act_finished (hx : Finished w x) (hf : w.inodes x = some f) (h : Act src dst i w w') :
    Finished w' x ∧ w'.inodes x = some f := by
  cases h with
  | same | directory | descriptor => exact ⟨hx, hf⟩
  | create t mode fd o hp ht hi hsrc =>
    have hne : x ≠ t := by
      rintro rfl
      rw [ht] at hf
      cases hf
    refine ⟨fun k hk => ?_, (Function.update_of_ne hne ..).trans hf⟩
    by_cases hki : k = i
    · rw [hki] at hk
      have hnew : Function.update w.unfinished i (some t) i = some x := hk
      rw [Function.update_self] at hnew
      exact hne (Option.some.inj hnew).symm
    · exact hx k ((Function.update_of_ne hki ..).symm.trans hk)
  | write t g d fd o hi hd hg =>
    have hne : x ≠ t := by
      rintro rfl
      exact hx i hi
    exact ⟨hx, (Function.update_of_ne hne ..).trans hf⟩
  | remove t g _ hi hg hd =>
    refine ⟨fun k hk => ?_, hf⟩
    by_cases hki : k = i
    · rw [hki] at hk
      cases (Function.update_self ..).symm.trans hk
    · exact hx k ((Function.update_of_ne hki ..).symm.trans hk)

theorem act_directory (hp : w.names p = some .directory) (h : Act src dst i w w') :
    w'.names p = some .directory := by
  cases h with
  | same | descriptor | write => exact hp
  | directory q hq =>
    have hne : p ≠ q := by
      rintro rfl
      rw [hq] at hp
      cases hp
    exact (Function.update_of_ne hne ..).trans hp
  | create t mode fd o hq _ _ _ =>
    have hne : p ≠ dst i := by
      rintro rfl
      rw [hq] at hp
      cases hp
    exact (Function.update_of_ne hne ..).trans hp
  | remove t g _ hi hg hd =>
    have hne : p ≠ src i := by
      rintro rfl
      obtain ⟨_, _, hfile, -⟩ := contents_some.mp hd
      rw [hp] at hfile
      cases hfile
    exact (Function.update_of_ne hne ..).trans hp

/-- As long as a copy is unfinished, the others can touch neither it nor its original. -/
theorem act_copy (hpair : Paired src dst) (hs : Sound src dst w) (hij : j ≠ i)
    (hj : w.unfinished j = some t) (h : Act src dst i w w') :
    (∀ f, w.inodes t = some f → w'.inodes t = some f) ∧
      ∀ d, contents w (src j) = some d → contents w' (src j) = some d := by
  have hname := (hs.copy j t hj).1
  constructor
  · intro f hf
    cases h with
    | same | directory | descriptor | remove => exact hf
    | create s mode fd o _ hs' _ _ =>
      refine (Function.update_of_ne ?_ ..).trans hf
      rintro rfl
      rw [hs'] at hf
      cases hf
    | write s g d fd o hi _ _ =>
      refine (Function.update_of_ne ?_ ..).trans hf
      rintro rfl
      exact hij (hs.distinct j i t hj hi)
  · intro d hd
    cases h with
    | same | descriptor => exact hd
    | directory p hp => exact (congrFun (contents_mkdir hp) _).trans hd
    | create s mode fd o hp ht hi _ => exact (congrFun (contents_create hs hp ht hi) _).trans hd
    | write s g c fd o hi _ _ => exact (congrFun (contents_write hi) _).trans hd
    | remove s g _ hi hg hc =>
      have hdst := (hs.copy i s hi).1
      have hsrc : src j ≠ src i := by
        intro he
        rw [← hpair.same j i he, hname] at hdst
        have hst : t = s := by simpa using hdst
        exact hij (hs.distinct j i s (hst ▸ hj) hi)
      have hcross : src j ≠ dst i := by
        intro he
        rw [he, contents_unfinished hi hdst] at hd
        cases hd
      rw [contents_unlink hs hi hg hc, Function.update_of_ne hcross, Function.update_of_ne hsrc, hd]

/-- A file that has been opened as the original: another process is still copying into
it, or it has the content that is to be moved. -/
def Usable (src dst : ι → Place Dir) (j : ι) (w : Files Dir ι) (x : Nat) : Prop :=
  (∃ i, i ≠ j ∧ w.unfinished i = some x ∧ dst i = src j) ∨
    ∃ f, Finished w x ∧ w.inodes x = some f ∧
      (contents w (src j) = some f.data ∨ contents w (dst j) = some f.data)

theorem act_usable (hpair : Paired src dst) (hs : Sound src dst w) (hij : j ≠ i)
    (hx : Usable src dst j w x) (h : Act src dst i w w') : Usable src dst j w' x := by
  obtain ⟨k, hkj, hk, hdst⟩ | ⟨f, hfin, hf, hd⟩ := hx
  · by_cases hki : k = i
    · subst hki
      cases h with
      | same | directory | descriptor | write => exact .inl ⟨k, hkj, hk, hdst⟩
      | create t mode fd o _ _ hi _ =>
        rw [hk] at hi
        cases hi
      | remove t f _ hi hf hd =>
        have hxt : t = x := by simpa using hi.symm.trans hk
        subst hxt
        refine .inr ⟨f, fun l hl => ?_, hf, .inl ?_⟩
        · by_cases hlk : l = k
          · rw [hlk] at hl
            cases (Function.update_self ..).symm.trans hl
          · exact hlk (hs.distinct l k t ((Function.update_of_ne hlk ..).symm.trans hl) hi)
        · rw [contents_unlink hs hi hf hd, ← hdst, Function.update_self]
    · exact .inl ⟨k, hkj, (act_others hki h).2.1.trans hk, hdst⟩
  · obtain ⟨hfin', hf'⟩ := act_finished hfin hf h
    refine .inr ⟨f, hfin', hf', ?_⟩
    obtain ⟨-, hsame⟩ | ⟨c, -, -, hc, hnone, hmoved⟩ := act_contents hs h
    · rwa [hsame]
    rw [hmoved]
    obtain hd | hd := hd
    · have hcross : src j ≠ dst i := by
        intro he
        rw [he, hnone] at hd
        cases hd
      by_cases hsrc : src j = src i
      · rw [hsrc, hc] at hd
        rw [hpair.same j i hsrc, Function.update_self]
        exact .inr hd
      · rw [Function.update_of_ne hcross, Function.update_of_ne hsrc]
        exact .inl hd
    · have hcross : dst j ≠ dst i := by
        intro he
        rw [he, hnone] at hd
        cases hd
      by_cases hdst : dst j = src i
      · rw [hdst, hc] at hd
        rw [← hpair.across i j hdst.symm, Function.update_self]
        exact .inl hd
      · rw [Function.update_of_ne hcross, Function.update_of_ne hdst]
        exact .inr hd

end act

end Ti3.Trash.Shared
