import Ti3.Library.LexicalPath
import Ti3.Trash.Machine

namespace Ti3.Trash.Confinement

open Library.CString Library.CMemory Library.Interaction Library.Rules Library.LexicalPath
open Trashcan Paths Machine

/-- The calls that reach for a file. -/
inductive Touched where
  | opened (path : Bytes) (flags : Flags)
  | unlinked (path : Bytes)
  deriving DecidableEq

/-- Any file system at all: only the home directory is known. The files that are
reached for are listed. -/
def watched (home : Option Bytes) : Environment Call Answer (List Touched) := fun t c a t' =>
  match c, a with
  | .getenv name, a => t' = t ∧ (name = ascii "HOME" → a = home)
  | .open path flags _, _ => t' = .opened path flags :: t
  | .unlink path, _ => t' = .unlinked path :: t
  | _, _ => t' = t

theorem watched_homeAt (home : Option Bytes) : HomeAt (watched home) home where
  getenv _ _ _ h := ⟨h.2 rfl, h.1⟩
  array _ _ _ _ h := h

/-- What a command creates in the trash, or removes from it. -/
def inTrash : Command → Touched → Option Bytes
  | .put _, .opened path .createExcl => some path
  | .get _, .unlinked path => some path
  | .remove _, .unlinked path => some path
  | _, _ => none

/-- The trash directory, by the names on the way to it. -/
def trash (cwd : List Bytes) (home : Bytes) : List Bytes := resolve cwd (joined home trashdirname)

/-- The path of a file in the trash is that of a file inside the trash. -/
def Buildable (cwd : List Bytes) (home : Option Bytes) (filename : Bytes) : Prop :=
  ∃ homedir, home = some homedir ∧
    Below (trash cwd homedir) (resolve cwd (trashPath homedir filename))

/-- Only files inside the trash are created in it or removed from it, and without
a path to one the command exits before it reaches for any file. -/
structure Confined (cwd : List Bytes) (home : Option Bytes) (prog : Bytes) (c : Command) :
    Prop where
  inside : ∀ o t, Runs (watched home) (main (c.argv prog)) [] o t → ∀ x ∈ t, ∀ path,
    inTrash c x = some path →
      ∃ homedir, home = some homedir ∧ Below (trash cwd homedir) (resolve cwd path)
  refused : ¬ Buildable cwd home c.name → ∀ o t, Runs (watched home) (main (c.argv prog)) [] o t →
    t = [] ∧ (o = .cut ∨ ∃ code message, o = .halted (.status code message))

variable {cwd : List Bytes} {home : Option Bytes} {homedir filename prog : Bytes}
variable {t : List Touched}

theorem resolve_trashPath : resolve cwd (trashPath homedir filename) =
    walk (trash cwd homedir) (components filename) :=
  resolve_append filename (List.append_ne_nil_of_right_ne_nil _ (List.cons_ne_nil _ _))

/-- The copy itself reaches for no further files. -/
theorem copyLoop_guarantees (inFd outFd : Nat) :
    Guarantees (watched home) (.loop (copyStep inFd outFd) () fun complete =>
      if complete then closeBoth inFd outFd else .done 3) t (fun _ t' => t' = t) := by
  refine guarantees_loop (fun _ t' => t' = t) rfl ?_
  rintro _ _ rfl
  simp only [copyStep, Trashcan.read, Trashcan.write, closeBoth, close, library, ask_bind]
  refine guarantees_call.mpr ⟨rfl, fun bytes t₁ ht => ?_⟩
  obtain rfl : t₁ = _ := ht
  cases bytes with
  | none => exact guarantees_done.mpr ⟨rfl, guarantees_done.mpr ⟨rfl, rfl⟩⟩
  | some bytes =>
    cases bytes with
    | nil =>
      refine guarantees_done.mpr ⟨rfl, guarantees_call.mpr ⟨rfl, fun a t₂ ht => ?_⟩⟩
      obtain rfl : t₂ = _ := ht
      split
      · exact guarantees_done.mpr ⟨rfl, rfl⟩
      · refine guarantees_call.mpr ⟨rfl, fun b t₃ ht => ?_⟩
        obtain rfl : t₃ = _ := ht
        split <;> exact guarantees_done.mpr ⟨rfl, rfl⟩
    | cons b bs =>
      refine guarantees_call.mpr ⟨rfl, fun a t₂ ht => ?_⟩
      obtain rfl : t₂ = _ := ht
      split
      · exact guarantees_done.mpr ⟨rfl, rfl⟩
      · exact guarantees_halt.mpr ⟨rfl, rfl⟩

/-- The files that a move of a file reaches for. -/
def moved (infile outfile : Bytes) : List Touched :=
  [.opened infile .rdonly, .opened outfile .createExcl, .unlinked infile]

theorem filecopy_guarantees (infile outfile : Bytes) :
    Guarantees (watched home) (filecopy infile outfile) t
      (fun _ t' => ∀ x ∈ t', x ∈ t ∨ x ∈ moved infile outfile) := by
  have hnone : ∀ x ∈ t, x ∈ t ∨ x ∈ moved infile outfile := fun _ h => .inl h
  have hin : ∀ x ∈ Touched.opened infile .rdonly :: t, x ∈ t ∨ x ∈ moved infile outfile :=
    List.forall_mem_cons.mpr ⟨.inr (by simp [moved]), hnone⟩
  have hboth : ∀ x ∈ Touched.opened outfile .createExcl :: .opened infile .rdonly :: t,
      x ∈ t ∨ x ∈ moved infile outfile :=
    List.forall_mem_cons.mpr ⟨.inr (by simp [moved]), hin⟩
  simp only [filecopy, openFile, fstat, library, ask_bind]
  refine guarantees_call.mpr ⟨hnone, fun inFd t₁ ht => ?_⟩
  obtain rfl : t₁ = _ := ht
  cases inFd with
  | none => exact guarantees_done.mpr ⟨hin, hin⟩
  | some inFd =>
    refine guarantees_call.mpr ⟨hin, fun mode t₂ ht => ?_⟩
    obtain rfl : t₂ = _ := ht
    cases mode with
    | none => exact guarantees_done.mpr ⟨hin, hin⟩
    | some mode =>
      refine guarantees_call.mpr ⟨hin, fun outFd t₃ ht => ?_⟩
      obtain rfl : t₃ = _ := ht
      cases outFd with
      | none => exact guarantees_done.mpr ⟨hboth, hboth⟩
      | some outFd =>
        refine guarantees_mono (copyLoop_guarantees inFd outFd) (fun _ t' ht => ?_)
        rw [ht]
        exact hboth

theorem transfer_guarantees (infile outfile uncopied unremoved : Bytes) :
    Guarantees (watched home) (transfer infile outfile uncopied unremoved) t
      (fun _ t' => ∀ x ∈ t', x ∈ t ∨ x ∈ moved infile outfile) := by
  refine guarantees_bind (guarantees_mono (filecopy_guarantees infile outfile) (fun o t₁ ht => ?_))
  cases o with
  | cut | halted _ => exact ht
  | returned n =>
    simp only [follow]
    split
    · exact guarantees_halt.mpr ⟨ht, ht⟩
    · simp only [Trashcan.unlink, library, ask_bind]
      refine guarantees_call.mpr ⟨ht, fun a t₂ ht₂ => ?_⟩
      obtain rfl : t₂ = _ := ht₂
      have hall : ∀ x ∈ Touched.unlinked infile :: t₁, x ∈ t ∨ x ∈ moved infile outfile := by
        refine List.forall_mem_cons.mpr ⟨.inr (by simp [moved]), ht⟩
      split
      · exact guarantees_halt.mpr ⟨hall, hall⟩
      · exact guarantees_done.mpr ⟨hall, hall⟩

/-- The files that a command reaches for when the trash is in a home directory. -/
def touches (homedir : Bytes) : Command → List Touched
  | .put n => moved n (trashPath homedir n)
  | .get n => moved (trashPath homedir n) n
  | .remove n => [.unlinked (trashPath homedir n)]

variable {c : Command}

/-- With the path at hand the rest of a command is run. -/
theorem named_guarantees {α : Type} {k : Bytes → Process α}
    {P : Outcome Exit α → List Touched → Prop} (h₀ : 0 ∉ homedir) (h₁ : 0 ∉ filename)
    (hk : Guarantees (watched (some homedir)) (k (trashPath homedir filename)) t P) :
    Guarantees (watched (some homedir)) (trashname filename >>= k) t P := by
  refine guarantees_bind (guarantees_mono
    (trashname_guarantees (watched_homeAt _) h₀ h₁) (fun o t₁ ⟨ht, ho⟩ => ?_))
  subst ht
  obtain rfl | rfl := ho
  · exact hk _ _ (runs_cut _ _)
  · exact hk

theorem optMktrashdir_guarantees (h₀ : 0 ∉ homedir) :
    Guarantees (watched (some homedir)) optMktrashdir t (fun _ t' => t' = t) := by
  refine named_guarantees h₀ List.not_mem_nil ?_
  simp only [mkdir, library, ask_bind]
  refine guarantees_call.mpr ⟨rfl, fun a t₁ ht => ?_⟩
  obtain rfl : t₁ = _ := ht
  cases a with
  | ok _ => exact guarantees_done.mpr ⟨rfl, rfl⟩
  | error e =>
    cases e with
    | eexist => exact guarantees_done.mpr ⟨rfl, rfl⟩
    | other => exact guarantees_halt.mpr ⟨rfl, rfl⟩

theorem main_guarantees (prog : Bytes) (h₀ : 0 ∉ homedir) (h₁ : 0 ∉ c.name) :
    Guarantees (watched (some homedir)) (main (c.argv prog)) []
      (fun _ t => ∀ x ∈ t, x ∈ touches homedir c) := by
  have hmoved {infile outfile : Bytes} {uncopied unremoved : Bytes} :
      Guarantees (watched (some homedir)) (transfer infile outfile uncopied unremoved) []
        (fun _ t => ∀ x ∈ t, x ∈ moved infile outfile) :=
    guarantees_mono (transfer_guarantees _ _ _ _)
      (fun _ _ ht x hx => (ht x hx).resolve_left List.not_mem_nil)
  cases c with
  | put n =>
    rw [main_put]
    refine guarantees_bind (guarantees_mono (optMktrashdir_guarantees h₀) (fun o t ht => ?_))
    subst ht
    cases o with
    | cut | halted _ => exact fun _ hx => absurd hx List.not_mem_nil
    | returned _ => exact named_guarantees h₀ h₁ hmoved
  | get n =>
    rw [main_get]
    exact named_guarantees h₀ h₁ hmoved
  | remove n =>
    rw [main_remove]
    refine named_guarantees h₀ h₁ ?_
    simp only [Trashcan.unlink, library, ask_bind]
    refine guarantees_call.mpr ⟨fun _ hx => absurd hx List.not_mem_nil, fun a t ht => ?_⟩
    obtain rfl : t = _ := ht
    split
    · exact guarantees_halt.mpr ⟨fun _ hx => hx, fun _ hx => hx⟩
    · exact guarantees_done.mpr ⟨fun _ hx => hx, fun _ hx => hx⟩

theorem inTrash_touches {x : Touched} {path : Bytes} (hx : x ∈ touches homedir c)
    (hp : inTrash c x = some path) : path = trashPath homedir c.name := by
  cases c with
  | put n | get n =>
    simp only [touches, moved, List.mem_cons, List.not_mem_nil, or_false] at hx
    obtain rfl | rfl | rfl := hx
    · cases hp
    · cases hp <;> rfl
    · cases hp <;> rfl
  | remove n =>
    cases List.mem_singleton.mp hx
    cases hp
    rfl

theorem trashname_runs (h₀ : 0 ∉ homedir) (h₁ : 0 ∉ filename) :
    Runs (watched (some homedir)) (trashname filename) t
      (.returned (trashPath homedir filename)) t := by
  have hget : watched (some homedir) t (.getenv (ascii "HOME")) (some homedir) t :=
    ⟨rfl, fun _ => rfl⟩
  exact trashname_answers hget (fun n => ⟨Buffer.zeros n, rfl⟩) h₀ h₁

/-- With the home directory known every command comes to reach for a file. -/
theorem main_touches (prog : Bytes) (h₀ : 0 ∉ homedir) (h₁ : 0 ∉ c.name) :
    ∃ x, Runs (watched (some homedir)) (main (c.argv prog)) [] .cut [x] := by
  have hopen {infile outfile uncopied unremoved : Bytes} :
      Runs (watched (some homedir)) (transfer infile outfile uncopied unremoved) [] .cut
        [.opened infile .rdonly] :=
    runs_call (a := none) rfl (runs_cut _ _)
  cases c with
  | put n =>
    have hmkdir : Runs (watched (some homedir)) optMktrashdir [] (.returned ()) [] :=
      runs_next (trashname_runs h₀ List.not_mem_nil) (runs_call (a := .ok ()) rfl runs_done)
    rw [main_put]
    exact ⟨_, runs_next hmkdir (runs_next (trashname_runs h₀ h₁) hopen)⟩
  | get n =>
    rw [main_get]
    exact ⟨_, runs_next (trashname_runs h₀ h₁) hopen⟩
  | remove n =>
    have hunlink : watched (some homedir) [] (.unlink (trashPath homedir n)) 0
      [.unlinked (trashPath homedir n)] := rfl
    rw [main_remove]
    exact ⟨_, runs_next (trashname_runs h₀ h₁) (runs_call hunlink (runs_cut _ _))⟩

/-- Without a home directory a string is looked for in an array of one byte that
nothing has been stored in. -/
theorem main_faults (prog : Bytes) (c : Command) :
    Runs (watched none) (main (c.argv prog)) [] (.halted .fault) [] := by
  have hname (filename : Bytes) :
      Runs (watched none) (trashname filename) [] (.halted .fault) [] := by
    have hget : watched none [] (.getenv (ascii "HOME")) none [] := ⟨rfl, fun _ => rfl⟩
    have harray : watched none [] (.array 1) ⟨[1], rfl⟩ [] := rfl
    have hstring : Buffer.string ⟨[1], rfl⟩ start = none := by decide
    have hfault : Runs (watched none) (access (none : Option Bytes)) [] (.halted .fault) [] :=
      runs_halt
    rw [← hstring] at hfault
    rw [trashname]
    exact runs_call hget (runs_call harray (runs_call hget hfault))
  have hbind {α β : Type} {p : Process α} (k : α → Process β)
      (hp : Runs (watched none) p [] (.halted .fault) []) :
      Runs (watched none) (p >>= k) [] (.halted .fault) [] :=
    (runs_bind _ _ _ _ _).mpr (.halted hp)
  cases c with
  | put n =>
    rw [main_put]
    exact hbind _ (hbind _ (hname _))
  | get n =>
    rw [main_get]
    exact hbind _ (hname _)
  | remove n =>
    rw [main_remove]
    exact hbind _ (hname _)

theorem confined_iff_buildable (prog : Bytes) (hh : ∀ homedir, home = some homedir → 0 ∉ homedir)
    (h₁ : 0 ∉ c.name) : Confined cwd home prog c ↔ Buildable cwd home c.name := by
  constructor
  · intro h
    by_contra hb
    cases home with
    | none =>
      obtain ⟨_, he | ⟨code, message, he⟩⟩ := h.refused hb _ _ (main_faults prog c)
      · cases he
      · cases he
    | some homedir =>
      obtain ⟨x, hx⟩ := main_touches prog (hh _ rfl) h₁
      exact absurd (h.refused hb _ _ hx).1 (List.cons_ne_nil _ _)
  · rintro ⟨homedir, rfl, hb⟩
    refine ⟨fun o t hr x hx path hp => ?_, fun hn => absurd ⟨homedir, rfl, hb⟩ hn⟩
    rw [inTrash_touches (main_guarantees prog (hh _ rfl) h₁ o t hr x hx) hp]
    exact ⟨homedir, rfl, hb⟩

theorem buildable_iff : Buildable cwd home filename ↔ ∃ homedir, home = some homedir ∧
    Below ((trash cwd homedir).drop
        ((trash cwd homedir).length - (normal (components filename)).climbs))
      (normal (components filename)).names := by
  simp only [Buildable, resolve_trashPath, below_walk]

/-- A command stays in the trash if `HOME` is set and the filename, once every
`..` is cancelled against the name before it, leads into the trash: it has no
`..` and some name left, or comes back by the names it has gone up. -/
theorem confined_iff (prog : Bytes) (hh : ∀ homedir, home = some homedir → 0 ∉ homedir)
    (h₁ : 0 ∉ c.name) : Confined cwd home prog c ↔ ∃ homedir, home = some homedir ∧
      Below ((trash cwd homedir).drop
          ((trash cwd homedir).length - (normal (components c.name)).climbs))
        (normal (components c.name)).names :=
  (confined_iff_buildable prog hh h₁).trans buildable_iff

theorem confined_iff_inner : Confined [ascii "home", ascii "a"] (some (ascii "/home/a"))
    (ascii "trashcan") (.put (ascii "/b/../c")) :=
  (confined_iff (ascii "trashcan") (fun _ h => by cases h; decide) (by decide)).mpr
    ⟨ascii "/home/a", rfl, by decide +kernel⟩

theorem above_deleted : ¬ Confined [ascii "home", ascii "a"] (some (ascii "/home/a"))
      (ascii "trashcan") (.remove (ascii "../b")) ∧
    ∃ path, Runs (watched (some (ascii "/home/a")))
        (main [ascii "trashcan", ascii "-r", ascii "../b"]) [] (.returned ()) [.unlinked path] ∧
      resolve [ascii "home", ascii "a"] path = [ascii "home", ascii "a", ascii "b"] := by
  constructor
  · rw [confined_iff_buildable _ (fun _ h => by cases h; decide) (by decide), buildable_iff]
    rintro ⟨_, ⟨⟩, h⟩
    exact absurd h (by decide +kernel)
  · have hname : Runs (watched (some (ascii "/home/a"))) (trashname (ascii "../b")) []
        (.returned (trashPath (ascii "/home/a") (ascii "../b"))) [] :=
      trashname_runs (by decide) (by decide)
    refine ⟨trashPath (ascii "/home/a") (ascii "../b"), ?_, by decide +kernel⟩
    have hmain : main [ascii "trashcan", ascii "-r", ascii "../b"] =
        finallyDelete (ascii "../b") := main_remove
    rw [hmain]
    exact runs_next hname (runs_call (a := 0) rfl runs_done)

end Ti3.Trash.Confinement
