import Ti3.Library.CMemory
import Ti3.Library.Interaction

namespace Ti3.Trash.Trashcan

open Library.CString Library.CMemory Library.Interaction

def buffsize : Nat := 4096
def trashdirmode : BitVec 32 := 0o700
def trashdirname : Bytes := ascii ".ti3_trash"

inductive Errno where
  | eexist
  | other
  deriving DecidableEq

/-- How a file is opened: `O_RDONLY`, or `O_WRONLY | O_CREAT | O_EXCL`. -/
inductive Flags where
  | rdonly
  | createExcl
  deriving DecidableEq

/-- The library calls of the tool. `array` answers what an array holds before
anything is stored in it. -/
inductive Call where
  | getenv (name : Bytes)
  | array (size : Nat)
  | mkdir (path : Bytes) (mode : BitVec 32)
  | open (path : Bytes) (flags : Flags) (mode : BitVec 32)
  | fstat (fd : Nat)
  | read (fd : Nat) (count : Nat)
  | write (fd : Nat) (bytes : Bytes)
  | close (fd : Nat)
  | unlink (path : Bytes)

abbrev Answer : Call → Type
  | .getenv _ => Option Bytes
  | .array n => Buffer n
  | .mkdir _ _ => Except Errno Unit
  | .open _ _ _ => Option Nat
  | .fstat _ => Option (BitVec 32)
  | .read _ _ => Option Bytes
  | .write _ _ | .close _ | .unlink _ => Int

/-- How the process ends: with a status and a message, by a failed assertion, or
by undefined behaviour. -/
inductive Exit where
  | status (code : Nat) (message : Bytes)
  | abort
  | fault
  deriving DecidableEq

abbrev Process := Program Call Answer Exit

def library (c : Call) : Process (Answer c) := ask c

def getenv (name : Bytes) : Process (Option Bytes) := library (.getenv name)
def array (n : Nat) : Process (Buffer n) := library (.array n)
def mkdir (path : Bytes) (mode : BitVec 32) : Process (Except Errno Unit) :=
  library (.mkdir path mode)
def openFile (path : Bytes) (flags : Flags) (mode : BitVec 32) : Process (Option Nat) :=
  library (.open path flags mode)
def fstat (fd : Nat) : Process (Option (BitVec 32)) := library (.fstat fd)
def read (fd : Nat) (count : Nat) : Process (Option Bytes) := library (.read fd count)
def write (fd : Nat) (bytes : Bytes) : Process Int := library (.write fd bytes)
def close (fd : Nat) : Process Int := library (.close fd)
def unlink (path : Bytes) : Process Int := library (.unlink path)

def err {α : Type} (code : Nat) (message : Bytes) : Process α := .halt (.status code message)

/-- Memory accesses without a result are undefined behaviour. -/
def access {α : Type} : Option α → Process α
  | some a => pure a
  | none => .halt .fault

def start : Pointer := .inside 0

/-- The length of a path constructed by `filecat`, its zero included. -/
def filecatlen (filename1 filename2 : Bytes) : Nat := filename1.length + filename2.length + 2

/-- Joins two filenames with a slash. -/
def filecat {n : Nat} (outfilename : Buffer n) (filename1 filename2 : Bytes) :
    Option (Buffer n) := do
  let outfilename ← outfilename.strcpy start filename1
  let outfilename ← outfilename.strcat start (ascii "/")
  outfilename.strcat start filename2

/-- The length of the path of a file in the trash, its zero included. -/
def getTrashnamelen (filename : Bytes) : Process Nat := do
  match ← getenv (ascii "HOME") with
  | none => return 1
  | some homedir => return homedir.length + trashdirname.length + filename.length + 3

/-- Constructs the path of a file in the trash. Without a home directory the
array stays as it is. -/
def getTrashname {n : Nat} (outfilename : Buffer n) (filename : Bytes) : Process (Buffer n) := do
  match ← getenv (ascii "HOME") with
  | none => return outfilename
  | some homedir =>
    let trashdir ← array (filecatlen homedir trashdirname)
    let trashdir ← access (filecat trashdir homedir trashdirname)
    access (filecat outfilename (← access (trashdir.string start)) filename)

/-- The string in an array that has been given to `getTrashname`. -/
def trashname (filename : Bytes) : Process Bytes := do
  let size ← getTrashnamelen filename
  let trashname ← getTrashname (← array size) filename
  access (trashname.string start)

/-- Creates the trash directory if it does not exist yet. -/
def optMktrashdir : Process Unit := do
  let trashdirname ← trashname []
  match ← mkdir trashdirname trashdirmode with
  | .ok _ | .error .eexist => return ()
  | .error _ => err 5 (ascii "Cannot create trash directory " ++ trashdirname ++ ascii ".")

/-- One round of the copy loop. It ends with the last answer of `read`. -/
def copyStep (inFd outFd : Nat) : Unit → Process (Unit ⊕ Bool) := fun _ => do
  match ← read inFd buffsize with
  | none => return .inr false
  | some [] => return .inr true
  | some buffer =>
    let written ← write outFd buffer
    if written = buffer.length then return .inl () else .halt .abort

def closeBoth (inFd outFd : Nat) : Process Nat := do
  if (← close inFd) = -1 then return 1
  else if (← close outFd) = -1 then return 2
  else return 0

/-- Copy the contents of a file into another not yet existing file: 0 on
success, 1 on problems with the input file, 2 on problems with the output file,
3 on problems in the copying process. -/
def filecopy (infile outfile : Bytes) : Process Nat := do
  match ← openFile infile .rdonly 0 with
  | none => return 1
  | some inFd =>
    match ← fstat inFd with
    | none => return 1
    | some mode =>
      match ← openFile outfile .createExcl mode with
      | none => return 2
      | some outFd =>
        .loop (copyStep inFd outFd) () fun complete =>
          if complete then closeBoth inFd outFd else return 3

/-- A copy followed by the removal of the original, with the messages for the
failure of either. -/
def transfer (infile outfile uncopied unremoved : Bytes) : Process Unit := do
  if (← filecopy infile outfile) ≠ 0 then err 2 uncopied
  else if (← unlink infile) = -1 then err 3 unremoved

/-- Moves the file with the given name to the trash. -/
def moveToTrash (filename : Bytes) : Process Unit := do
  optMktrashdir
  let trashname ← trashname filename
  transfer filename trashname
    (ascii "Error copying " ++ filename ++ ascii " to " ++ trashname ++ ascii ".")
    (ascii "Cannot remove source file " ++ filename ++ ascii ".")

/-- Moves the given file from the trash to the current directory. -/
def recoverFromTrash (filename : Bytes) : Process Unit := do
  let trashname ← trashname filename
  transfer trashname filename
    (ascii "Error copying " ++ filename ++ ascii " to current directory.")
    (ascii "Cannot remove file " ++ trashname ++ ascii " from trash.")

/-- Ultimately removes the given file from the trash. -/
def finallyDelete (filename : Bytes) : Process Unit := do
  let trashname ← trashname filename
  if (← unlink trashname) = -1 then
    err 3 (ascii "Cannot remove file " ++ trashname ++ ascii " from trash.")

/-- The first command-line argument decides what to do. Behind the zero of an
argument there is nothing to be read. -/
def main (argv : List Bytes) : Process Unit :=
  match argv with
  | [_, mode, filename] => do
    let c ← access ((mode ++ [0])[1]?)
    if c = 112 then moveToTrash filename
    else if c = 103 then recoverFromTrash filename
    else if c = 114 then finallyDelete filename
    else err 1 (ascii "Unknown option " ++ mode ++ ascii ".")
  | prog :: _ => err 1 (ascii "Usage: " ++ prog ++ ascii " <mode> <filename>\n")
  | [] => .halt .fault

end Ti3.Trash.Trashcan
