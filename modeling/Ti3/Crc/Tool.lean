import Mathlib.Algebra.Order.Ring.Int
import Ti3.Library.CString
import Ti3.Library.Interaction

namespace Ti3.Crc.Tool

open Library.CString Library.Interaction

/-- A file name as a C string, without its terminating zero. -/
abbrev Name := Bytes

def errArg : Nat := 1
def errFile : Nat := 2
def errIo : Nat := 3
def wrongChecksum : Nat := 4

def poly : BitVec 16 := 0 ||| (1 <<< 15) ||| (1 <<< 2) ||| (1 <<< 0)
def checksumByteCnt : Int := 2
def bufsize : Nat := 4096
def dot : UInt8 := 46
def crcSuffix : Bytes := ascii ".crc"

inductive Mode where
  | readUpdate
  | read
  | writeExclusive
  deriving DecidableEq

inductive Whence where
  | set
  | fileEnd
  deriving DecidableEq

inductive Errno where
  | eexist
  | other
  deriving DecidableEq

/-- The library calls of the tool. Streams are numbered. -/
inductive Call where
  | rename (old new : Name)
  | stat (name : Name)
  | fopen (name : Name) (mode : Mode)
  | fseek (file : Nat) (offset : Int) (whence : Whence)
  | ftell (file : Nat)
  | fgetc (file : Nat)
  | fputc (c : BitVec 32) (file : Nat)
  | fread (count : Nat) (file : Nat)
  | fwrite (bytes : Bytes) (file : Nat)
  | fclose (file : Nat)
  | unlink (name : Name)
  deriving DecidableEq

abbrev Answer : Call → Type
  | .rename _ _ | .fseek _ _ _ | .ftell _ | .fclose _ | .unlink _ => Int
  | .stat _ => Option Int
  | .fopen _ _ => Except Errno Nat
  | .fgetc _ | .fputc _ _ => BitVec 32
  | .fread _ _ => Bytes
  | .fwrite _ _ => Nat

/-- How a process ends before `main` returns: with a status and a message, or
by using a null pointer. -/
inductive Exit where
  | status (code : Nat) (message : Bytes)
  | fault
  deriving DecidableEq

abbrev Process := Program Call Answer Exit

def err {α : Type} (code : Nat) (message : Bytes) : Process α := .halt (.status code message)

/-- The check of a result, followed by `err` or `errx` when it failed. -/
def errIf (failed : Prop) [Decidable failed] (code : Nat) (message : Bytes) : Process Unit :=
  if failed then err code message else pure ()

def library (c : Call) : Process (Answer c) := ask c

def rename (old new : Name) : Process Int := library (.rename old new)
def stat (name : Name) : Process (Option Int) := library (.stat name)
def fopen (name : Name) (mode : Mode) : Process (Except Errno Nat) := library (.fopen name mode)
def fseek (file : Nat) (offset : Int) (whence : Whence) : Process Int :=
  library (.fseek file offset whence)
def ftell (file : Nat) : Process Int := library (.ftell file)
def fgetc (file : Nat) : Process (BitVec 32) := library (.fgetc file)
def fputc (c : BitVec 32) (file : Nat) : Process (BitVec 32) := library (.fputc c file)
def fread (count : Nat) (file : Nat) : Process Bytes := library (.fread count file)
def fwrite (bytes : Bytes) (file : Nat) : Process Nat := library (.fwrite bytes file)
def fclose (file : Nat) : Process Int := library (.fclose file)
def unlink (name : Name) : Process Int := library (.unlink name)

/-- Conversion to `int`. -/
def toInt (x : Int) : Int := x.bmod (2 ^ 32)

/-- Conversion to `long`. -/
def toLong (x : Int) : Int := x.bmod (2 ^ 64)

/-- Conversion to `size_t`. -/
def toSize (x : Int) : Nat := (x % 2 ^ 64).toNat

/-- The static variables of `next_bit_from`. -/
structure Statics where
  curByte : BitVec 32
  curOffs : BitVec 32
  deriving DecidableEq

def Statics.start : Statics := ⟨0, 7⟩

def nextBitFrom (s : Statics) (file : Nat) : Process (BitVec 32 × Statics) := do
  let s := { s with curOffs := s.curOffs + 1 }
  let s ← if s.curOffs = 8 then do
      let curByte ← fgetc file
      pure ⟨curByte, 0⟩
    else pure s
  return ((s.curByte.sshiftRight (7 - s.curOffs).toNat) &&& 1, s)

/-- The loop of `calc_crc_rem`: the counter, the register and the statics. -/
structure Division where
  i : Int
  divReg : BitVec 16
  statics : Statics

def divisionStep (file : Nat) (bitsCnt : Int) (d : Division) :
    Process (Division ⊕ BitVec 16 × Statics) := do
  if d.i < bitsCnt then
    let highestBit := d.divReg &&& 0x8000
    let (bit, statics) ← nextBitFrom d.statics file
    let divReg := (d.divReg <<< 1) ||| bit.setWidth 16
    let divReg := if highestBit = 0x8000 then divReg ^^^ poly else divReg
    return .inl ⟨toInt (d.i + 1), divReg, statics⟩
  else return .inr (d.divReg, d.statics)

def calcCrcRem (s : Statics) (file : Nat) (filesize : Int) : Process (BitVec 16 × Statics) := do
  let bitsCnt := toLong (filesize * 8)
  errIf ((← fseek file 0 .set) = -1) errIo (ascii "Cannot go back to the start of file")
  .loop (divisionStep file bitsCnt) ⟨0, 0, s⟩ .done

def calculate (filename : Name) : Process Unit := do
  let newFilename := filename ++ crcSuffix
  errIf ((← rename filename newFilename) = -1) errFile
    (ascii "Cannot rename " ++ filename ++ ascii " to " ++ newFilename)
  match ← fopen newFilename .readUpdate with
  | .error _ => err errIo (ascii "Cannot read/write from " ++ newFilename)
  | .ok file =>
    errIf ((← fseek file 0 .fileEnd) = -1) errIo
      (ascii "Cannot seek to the end of " ++ newFilename)
    let _ ← fputc 0 file
    let _ ← fputc 0 file
    let fileSize ← ftell file
    errIf (fileSize = 0) errIo (ascii "Cannot execute tell on " ++ newFilename)
    let (crcRem, _) ← calcCrcRem .start file fileSize
    errIf ((← fseek file (-checksumByteCnt) .fileEnd) = -1) errIo
      (ascii "Cannot seek back in " ++ newFilename)
    let _ ← fputc ((crcRem.setWidth 32).sshiftRight 8) file
    let _ ← fputc (crcRem.setWidth 32 &&& 0x00ff) file
    errIf ((← fclose file) = -1) errIo (ascii "Error closing " ++ newFilename)

/-- The start of `validate`, up to the test of the remainder: the stream, the
size and the verdict. -/
def remainderTest (infilename : Name) : Process (Nat × Int × Bool) := do
  match ← stat infilename with
  | none => err errFile (ascii "Cannot execute stat on " ++ infilename)
  | some filesize =>
    match ← fopen infilename .read with
    | .error _ => err errIo (ascii "Cannot read from " ++ infilename)
    | .ok infile =>
      let (crcRem, _) ← calcCrcRem .start infile filesize
      return (infile, filesize, crcRem = 0)

/-- The block copy of `validate`, for one value of its counter. -/
def copyStep (infilename outfilename : Name) (infile outfile : Nat) (portionsCnt i : Int) :
    Process (Int ⊕ Unit) := do
  if i < portionsCnt then
    let buffer ← fread bufsize infile
    errIf (buffer.length ≠ bufsize) errIo (ascii "Error reading from " ++ infilename)
    errIf ((← fwrite buffer outfile) ≠ bufsize) errIo (ascii "Error writing to " ++ outfilename)
    return .inl (toInt (i + 1))
  else return .inr ()

def copyWithoutChecksum (infilename outfilename : Name) (infile outfile : Nat) (filesize : Int) :
    Process Unit := do
  let portionsCnt := (filesize - checksumByteCnt).tdiv bufsize
  .loop (copyStep infilename outfilename infile outfile portionsCnt) 0 .done
  let yetToReadCnt := toInt (filesize - portionsCnt * bufsize - checksumByteCnt)
  let buffer ← fread (toSize yetToReadCnt) infile
  errIf (buffer.length ≠ toSize yetToReadCnt) errIo (ascii "Error reading from " ++ infilename)
  errIf ((← fwrite buffer outfile) ≠ toSize yetToReadCnt) errIo
    (ascii "Error writing to " ++ outfilename)

/-- `strcmp` on the null pointer is the fault. -/
def validate (infilename : Name) : Process Unit := do
  let (infile, filesize, verified) ← remainderTest infilename
  if verified then
    match lastIndex dot infilename with
    | none => .halt .fault
    | some crcExt =>
      errIf (infilename.drop crcExt ≠ crcSuffix) errArg
        (ascii "The file probably wasn't a crc-ed file!")
      let outfilename := infilename.take crcExt
      match ← fopen outfilename .writeExclusive with
      | .error .eexist => err errFile (outfilename ++ ascii " exists. Won't write to it.")
      | .error .other => err errIo (ascii "Cannot write to from " ++ outfilename)
      | .ok outfile =>
        errIf ((← fseek infile 0 .set) = -1) errIo
          (ascii "Cannot go back to the start of " ++ infilename)
        copyWithoutChecksum infilename outfilename infile outfile filesize
        errIf ((← fclose infile) = -1) errIo (ascii "Error closing " ++ infilename)
        errIf ((← fclose outfile) = -1) errIo (ascii "Error closing " ++ outfilename)
        errIf ((← unlink infilename) = -1) errFile (ascii "Cannot remove " ++ infilename)
  else err wrongChecksum (ascii "Verification failed")

def main (argv : List Bytes) : Process Unit :=
  match argv with
  | [_, mode, filename] =>
    if mode = ascii "calculate" then calculate filename
    else if mode = ascii "validate" then validate filename
    else err errArg (ascii "Unknown mode: " ++ mode)
  | _ => err errArg (ascii "Usage: crc [calculate|validate] <filename>")

end Ti3.Crc.Tool
