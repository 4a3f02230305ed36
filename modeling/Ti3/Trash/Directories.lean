import Ti3.Library.Determinism
import Ti3.Trash.Trashcan

namespace Ti3.Trash.Directories

open Library.CString Library.CMemory Library.Interaction Library.Determinism Trashcan

def slash : UInt8 := 47

/-- A path as the directory part, with its slash, and the last component. -/
def splitPath (path : Bytes) : Bytes × Bytes :=
  match lastIndex slash path with
  | none => ([], path)
  | some k => (path.take (k + 1), path.drop (k + 1))

/-- What the tool finds around it: the directories that paths lead to, the home
directory, the file mode creation mask and what arrays happen to hold. -/
structure System (Dir : Type) where
  dirAt : Bytes → Dir
  home : Option Bytes
  umask : BitVec 12
  array : (n : Nat) → Buffer n

abbrev Place (Dir : Type) := Dir × Bytes

def System.place {Dir : Type} (sys : System Dir) (path : Bytes) : Place Dir :=
  (sys.dirAt (splitPath path).1, (splitPath path).2)

/-- A regular file with its permission bits. -/
structure File where
  data : Bytes
  mode : BitVec 12
  deriving DecidableEq

/-- What a descriptor refers to. -/
inductive Opened (Dir : Type) where
  | file (place : Place Dir) (pos : Nat)
  | directory

structure World (Dir : Type) where
  files : Place Dir → Option File
  dirs : Dir → Bool
  fds : Nat → Option (Opened Dir)
  opened : Nat

variable {Dir : Type}

namespace World

def setFile [DecidableEq Dir] (w : World Dir) (p : Place Dir) (f : Option File) : World Dir :=
  { w with files := Function.update w.files p f }

def setFd (w : World Dir) (fd : Nat) (o : Option (Opened Dir)) : World Dir :=
  { w with fds := Function.update w.fds fd o }

def openFd (w : World Dir) (o : Opened Dir) : World Dir :=
  { w.setFd w.opened (some o) with opened := w.opened + 1 }

/-- The regular file behind a descriptor. -/
def behind (w : World Dir) (fd : Nat) : Option (Place Dir × Nat × File) :=
  match w.fds fd with
  | some (.file p pos) => (w.files p).map (fun f => (p, pos, f))
  | _ => none

/-- The end of a process closes its descriptors. -/
def exit (w : World Dir) : World Dir := { w with fds := fun _ => none, opened := 3 }

end World

/-- Names that can be given to a regular file. -/
def Proper (name : Bytes) : Prop := name ≠ [] ∧ name ≠ ascii "." ∧ name ≠ ascii ".."

instance (name : Bytes) : Decidable (Proper name) :=
  inferInstanceAs (Decidable (_ ∧ _ ∧ _))

/-- `st_mode` of a regular file. -/
def regular (mode : BitVec 12) : BitVec 32 := 0o100000 ||| mode.setWidth 32

/-- Write over a content from a position on. -/
def overwrite (d : Bytes) (pos : Nat) (bytes : Bytes) : Bytes :=
  d.take pos ++ bytes ++ d.drop (pos + bytes.length)

def advance (w : World Dir) (fd : Nat) (p : Place Dir) (pos : Nat) : World Dir :=
  w.setFd fd (some (.file p pos))

def store [DecidableEq Dir] (w : World Dir) (fd : Nat) (p : Place Dir) (pos : Nat) (f : File)
    (bytes : Bytes) : World Dir :=
  advance (w.setFile p (some { f with data := overwrite f.data pos bytes })) fd p
    (pos + bytes.length)

section

variable {w : World Dir} {fd fd' : Nat} {p p' : Place Dir} {pos : Nat} {f : File}

@[simp] theorem setFd_files {o : Option (Opened Dir)} : (w.setFd fd o).files = w.files := rfl

@[simp] theorem setFd_same {o : Option (Opened Dir)} : (w.setFd fd o).fds fd = o :=
  Function.update_self ..

theorem setFd_other {o : Option (Opened Dir)} (h : fd' ≠ fd) : (w.setFd fd o).fds fd' = w.fds fd' :=
  Function.update_of_ne h ..

@[simp] theorem advance_files : (advance w fd p pos).files = w.files := rfl

@[simp] theorem advance_same : (advance w fd p pos).fds fd = some (.file p pos) := setFd_same

theorem advance_other (h : fd' ≠ fd) : (advance w fd p pos).fds fd' = w.fds fd' := setFd_other h

theorem behind_file (h : w.fds fd = some (.file p pos)) (hf : w.files p = some f) :
    w.behind fd = some (p, pos, f) := by
  simp [World.behind, h, hf]

/-- What has been read at the end of a copy is added to it. -/
theorem overwrite_read {d bytes : Bytes} {k : Nat} (hb : bytes <+: d.drop k) :
    overwrite (d.take k) k bytes = d.take (k + bytes.length) := by
  have hrest : (d.take k).drop (k + bytes.length) = [] :=
    List.drop_eq_nil_of_le (Nat.le_trans (List.length_take_le k d) (Nat.le_add_right _ _))
  rw [overwrite, List.take_take, Nat.min_self, hrest, List.append_nil, List.take_add,
    ← List.prefix_iff_eq_take.mp hb]

variable [DecidableEq Dir]

@[simp] theorem setFile_fds {o : Option File} : (w.setFile p o).fds = w.fds := rfl

@[simp] theorem setFile_same {o : Option File} : (w.setFile p o).files p = o :=
  Function.update_self ..

theorem setFile_other {o : Option File} (h : p' ≠ p) : (w.setFile p o).files p' = w.files p' :=
  Function.update_of_ne h ..

end

variable [DecidableEq Dir] (sys : System Dir)

/-- A new file with the permission bits that the mask leaves. -/
def create (w : World Dir) (p : Place Dir) (mode : BitVec 32) : World Dir :=
  w.setFile p (some ⟨[], mode.setWidth 12 &&& ~~~sys.umask⟩)

/-- The library on directories where permissions are not in the way and nothing
fails. -/
def perform (w : World Dir) : (c : Call) → Answer c × World Dir
  | .getenv name => (if name = ascii "HOME" then sys.home else none, w)
  | .array n => (sys.array n, w)
  | .mkdir path _ =>
    if w.dirs (sys.dirAt path) then (.error .eexist, w)
    else (.ok (), { w with dirs := Function.update w.dirs (sys.dirAt path) true })
  | .open path .rdonly _ => match w.files (sys.place path) with
    | some _ => (some w.opened, w.openFd (.file (sys.place path) 0))
    | none => (none, w)
  | .open path .createExcl mode =>
    if w.files (sys.place path) = none ∧ w.dirs (sys.place path).1 ∧ Proper (sys.place path).2 then
      (some w.opened, (create sys w (sys.place path) mode).openFd (.file (sys.place path) 0))
    else (none, w)
  | .fstat fd => ((w.behind fd).map (fun b => regular b.2.2.mode), w)
  | .read fd count => match w.behind fd with
    | none => (none, w)
    | some (p, pos, f) =>
      let bytes := (f.data.drop pos).take count
      (some bytes, advance w fd p (pos + bytes.length))
  | .write fd bytes => match w.behind fd with
    | none => (-1, w)
    | some (p, pos, f) => (bytes.length, store w fd p pos f bytes)
  | .close fd => if (w.fds fd).isSome then (0, w.setFd fd none) else (-1, w)
  | .unlink path => match w.files (sys.place path) with
    | some _ => (0, w.setFile (sys.place path) none)
    | none => (-1, w)

/-- Directories known by their paths, with a file in the current one. -/
def desk : System Bytes := ⟨id, some (ascii "/home/a"), 0o022, Buffer.zeros⟩

def World.single (name data : Bytes) : World Bytes where
  files p := if p = ([], name) then some ⟨data, 0o644⟩ else none
  dirs d := d = []
  fds _ := none
  opened := 3

end Ti3.Trash.Directories
