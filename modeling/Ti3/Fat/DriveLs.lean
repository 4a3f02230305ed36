import Mathlib.Algebra.Order.Ring.Int
import Ti3.Library.CMemory
import Ti3.Library.Interaction

namespace Ti3.Fat.DriveLs

open Library.CString Library.CMemory Library.Interaction

def imgName : Bytes := ascii "drive.img"
def pathDelim : UInt8 := 47
def dirEntBytes : Nat := 32
def noSuchEntry : UInt32 := 0
def nameBytes : Nat := 12
def noMoreEntriesAttr : UInt8 := 0
def noMoreEntriesFcl : UInt16 := 0
def inputErr : Nat := 2
def notFoundErr : Nat := 3

structure FatInfo where
  bytsPerSec : UInt16
  secPerClus : UInt8
  rsvdSecCnt : UInt16
  numFATs : UInt8
  rootEntCnt : UInt16
  fatSize : UInt32
  firstRootDirSecNum : UInt32
  firstDataSector : UInt32
  dirEntsPerCluster : UInt16
  deriving DecidableEq

structure FatDirInfo where
  name : Buffer nameBytes
  attr : UInt8
  fstClusLO : UInt16
  deriving DecidableEq

structure DirEntryIteratorState where
  isRootDir : Bool
  maxEntryCnt : UInt16
  clusterNr : UInt16
  clusterOffset : UInt32
  entryNr : UInt16
  deriving DecidableEq

/-- The library calls of the tool, all on the one image file. `name` and `array`
answer what the name of an entry and an array hold before anything is stored in
them. -/
inductive Call where
  | fopen (path : Bytes)
  | ftell
  | fseek (offset : Int)
  | fgetc
  | fgets (size : Nat)
  | name
  | array (size : Nat)
  | puts (string : Bytes)

abbrev Answer : Call → Type
  | .fopen _ => Bool
  | .ftell | .fseek _ => Int
  | .fgetc => Option UInt8
  | .fgets _ => Option Bytes
  | .name => Buffer nameBytes
  | .array n => Buffer n
  | .puts _ => Unit

/-- How the process ends: with a status and a message, or by undefined
behaviour. -/
inductive Exit where
  | status (code : Nat) (message : Bytes)
  | fault
  deriving DecidableEq

abbrev Process := Program Call Answer Exit

def library (c : Call) : Process (Answer c) := ask c

def fopen (path : Bytes) : Process Bool := library (.fopen path)
def ftell : Process Int := library .ftell
def fseek (offset : Int) : Process Int := library (.fseek offset)
def fgetc : Process (Option UInt8) := library .fgetc
def fgets (size : Nat) : Process (Option Bytes) := library (.fgets size)
def name : Process (Buffer nameBytes) := library .name
def array (n : Nat) : Process (Buffer n) := library (.array n)
def puts (string : Bytes) : Process Unit := library (.puts string)

def err {α : Type} (code : Nat) (message : Bytes) : Process α := .halt (.status code message)

/-- Memory accesses without a result are undefined behaviour. -/
def access {α : Type} : Option α → Process α
  | some a => pure a
  | none => .halt .fault

def start : Pointer := .inside 0

/-- Read at an offset and return to the old position. -/
def readAt {α : Type} (offset : Int) (read : Process (Option α)) : Process α := do
  let oldOffset ← ftell
  if oldOffset = -1 then err inputErr (ascii "Unable to get position in file")
  else if (← fseek offset) = -1 then err inputErr (ascii "Unable to move poisition in file")
  else match ← read with
    | none => err inputErr (ascii "Error reading")
    | some res =>
      if (← fseek oldOffset) = -1 then
        err inputErr (ascii "Cannot return to old position in file")
      else return res

/-- Return the 8-bit number at the specified offset. -/
def read8 (offset : Int) : Process UInt8 := readAt offset fgetc

def read16 (offset : Int) : Process UInt16 := do
  let lowerByte := (← read8 offset).toUInt16
  let upperByte := (← read8 (offset + 1)).toUInt16
  return (upperByte <<< 8) + lowerByte

def read32 (offset : Int) : Process UInt32 := do
  let lowerWord := (← read16 offset).toUInt32
  let upperWord := (← read16 (offset + 1)).toUInt32
  return (upperWord <<< 16) + lowerWord

/-- Read a line into the name of an entry. -/
def fgetsName (n : Buffer nameBytes) : Process (Option (Buffer nameBytes)) := do
  return (← fgets nameBytes).map (fun line => n.fill (line ++ [0]))

/-- Return the directory entry at the specified byte offset. -/
def readDirEntry (offset : Int) : Process FatDirInfo := do
  let name ← readAt offset (do fgetsName (← name))
  let attr ← read8 (offset + 11)
  let fstClusLO ← read16 (offset + 26)
  return { name, attr, fstClusLO }

def isDirectory (dirInfo : FatDirInfo) : Bool := dirInfo.attr &&& 0x10 ≠ 0

/-- Generate return value for exhausted directory iterator. -/
def noMoreEntries : Process FatDirInfo := do
  return { name := ← name, attr := noMoreEntriesAttr, fstClusLO := noMoreEntriesFcl }

def isNoMoreEntries (dirInfo : FatDirInfo) : Bool :=
  dirInfo.attr = noMoreEntriesAttr ∧ dirInfo.fstClusLO = noMoreEntriesFcl

/-- Return the number of the first sector of the specified cluster number. -/
def clusterToSec (info : FatInfo) (clusterNr : UInt16) : UInt32 :=
  if clusterNr = 0 then info.firstRootDirSecNum
  else (clusterNr.toUInt32 - 2) * info.secPerClus.toUInt32 + info.firstDataSector

def secToOffset (info : FatInfo) (secNr : UInt32) : UInt32 := secNr * info.bytsPerSec.toUInt32

/-- Check whether the specified FAT entry is an EOC mark. -/
def isEoc (fatEntry : UInt16) : Bool := 0xfff8 ≤ fatEntry

/-- Return the number of the cluster in the specified cluster in the chain. -/
def getNextClusterNr (info : FatInfo) (clusterNr : UInt16) : Process UInt16 :=
  if info.bytsPerSec = 0 then .halt .fault
  else
    let fatOffset := clusterNr.toUInt32 * 2
    let fatSecNum := info.rsvdSecCnt.toUInt32 + fatOffset / info.bytsPerSec.toUInt32
    let fatEntOffset := (fatOffset % info.bytsPerSec.toUInt32).toUInt16
    read16 (secToOffset info fatSecNum + fatEntOffset.toUInt32).toNat

/-- Construct an iterator for traversing a directory. -/
def newDirEntryIterator (info : FatInfo) (secNum : UInt32) : Option DirEntryIteratorState :=
  if secNum = info.firstRootDirSecNum then
    some {
      isRootDir := true
      maxEntryCnt := info.rootEntCnt
      clusterNr := -1
      clusterOffset := secToOffset info secNum
      entryNr := -1 }
  else if info.secPerClus = 0 then none
  else
    some {
      isRootDir := false
      maxEntryCnt := info.dirEntsPerCluster
      clusterNr :=
        ((secNum - info.firstDataSector) / info.secPerClus.toUInt32 + 2).toUInt16
      clusterOffset := secToOffset info secNum
      entryNr := -1 }

/-- Return the current entry, or skip it. -/
def curEntry (ditState : DirEntryIteratorState) :
    Process (DirEntryIteratorState ⊕ (FatDirInfo × DirEntryIteratorState)) := do
  let offset : Int := (ditState.clusterOffset + ditState.entryNr.toUInt32 * 32).toNat
  if (← read8 (offset + 11)) &&& 0x08 ≠ 0 then return .inl ditState
  else
    let curEntry ← readDirEntry offset
    let first ← access (curEntry.name.load start)
    if plainChar first = 0 then
      return .inr (← noMoreEntries, { ditState with entryNr := ditState.entryNr - 1 })
    else if plainChar first = 0xe5 then return .inl ditState
    else return .inr (curEntry, ditState)

/-- One call of the recursive function: on the left is the state for the next
one. -/
def nextDirEntryStep (info : FatInfo) (ditState : DirEntryIteratorState) :
    Process (DirEntryIteratorState ⊕ (FatDirInfo × DirEntryIteratorState)) := do
  let ditState := { ditState with entryNr := ditState.entryNr + 1 }
  if ditState.entryNr = ditState.maxEntryCnt then
    if ditState.isRootDir then return .inr (← noMoreEntries, ditState)
    else
      let nextClusterNr ← getNextClusterNr info ditState.clusterNr
      if isEoc nextClusterNr then return .inr (← noMoreEntries, ditState)
      else curEntry { ditState with
        clusterNr := nextClusterNr
        clusterOffset := clusterToSec info nextClusterNr
        entryNr := -1 }
  else curEntry ditState

/-- Look whether there are more entries in the traversed directory. -/
def nextDirEntry (info : FatInfo) (ditState : DirEntryIteratorState) :
    Process (FatDirInfo × DirEntryIteratorState) :=
  .loop (nextDirEntryStep info) ditState .done

/-- Convert a filename from the FAT format to a *.* format. -/
def sprintFilename (outName : Buffer (nameBytes + 1)) (inName : Buffer nameBytes) :
    Option (Buffer (nameBytes + 1)) := do
  let outName ← outName.memset start 0 nameBytes
  let outName ← outName.strncpy start inName.bytes 8
  let firstEnd ← outName.strpbrk start (ascii " ")
  let outName ←
    if (← inName.load (start.move 8)) ≠ 0x20 then do
      let outName ← outName.store 46 firstEnd
      outName.strncpy (firstEnd.move 1) (inName.bytes.drop 8) 3
    else some outName
  match ← outName.strchr start 0x20 with
  | .null _ => some outName
  | .inside e => outName.store 0 (.inside e)

/-- The name of an entry as it is shown. -/
def prettyName (name : Buffer nameBytes) : Process Bytes := do
  let outName ← access (sprintFilename (← array (nameBytes + 1)) name)
  access (outName.string start)

/-- Compare a FAT format directory entry name with a name in *.* format for
equality. -/
def nameEquals (fatName : Buffer nameBytes) (normalName : Bytes) : Process Bool := do
  return (← prettyName fatName) = normalName

def findStep (info : FatInfo) (name : Bytes) (ditState : DirEntryIteratorState) :
    Process (DirEntryIteratorState ⊕ UInt32) := do
  let (entry, ditState) ← nextDirEntry info ditState
  if isNoMoreEntries entry then return .inr noSuchEntry
  else if ¬ isDirectory entry then return .inl ditState
  else if ← nameEquals entry.name name then return .inr (clusterToSec info entry.fstClusLO)
  else return .inl ditState

/-- Search in the directory at `secNum` for the entry with name `name` and return
the number of the sector where it starts. -/
def findPathSecNum (info : FatInfo) (secNum : UInt32) (name : Bytes) : Process UInt32 := do
  let ditState ← access (newDirEntryIterator info secNum)
  .loop (findStep info name) ditState .done

def listStep (info : FatInfo) (ditState : DirEntryIteratorState) :
    Process (DirEntryIteratorState ⊕ Unit) := do
  let (entry, ditState) ← nextDirEntry info ditState
  if isNoMoreEntries entry then return .inr ()
  else
    puts (← prettyName entry.name)
    return .inl ditState

/-- List the contents of the directory at `secNum`. -/
def list (info : FatInfo) (secNum : UInt32) : Process Unit := do
  let ditState ← access (newDirEntryIterator info secNum)
  .loop (listStep info) ditState .done

/-- One call of `ls`: on the left are the arguments for the next one. The path is
chopped in place. -/
def lsStep {n : Nat} (info : FatInfo) :
    UInt32 × Buffer n × Pointer → Process ((UInt32 × Buffer n × Pointer) ⊕ Unit) :=
  fun (secNum, memory, path) => do
    if (← access (memory.string path)).length = 0 then
      list info secNum
      return .inr ()
    else
      let subPath ← access (memory.strchr path pathDelim)
      let memory ← access (memory.store 0 subPath)
      let name ← access (memory.string path)
      let pathSecNum ← findPathSecNum info secNum name
      if pathSecNum = noSuchEntry then
        err notFoundErr (ascii "There is no entry with name " ++ name)
      else return .inl (pathSecNum, memory, subPath.move 1)

/-- List the contents of the specified directory relative to the directory with
the specified sector number. -/
def ls {n : Nat} (info : FatInfo) (secNum : UInt32) (memory : Buffer n) (path : Pointer) :
    Process Unit := .loop (lsStep info) (secNum, memory, path) .done

/-- An argument in memory, with its zero. -/
def argument (s : Bytes) : Buffer (s.length + 1) := ⟨s ++ [0], by simp⟩

/-- Determine the size of one FAT. -/
def readFatSize (fatsz16 : UInt16) : Process UInt32 :=
  if fatsz16 ≠ 0 then pure fatsz16.toUInt32 else read32 32

/-- Read the necessary filesystem information. -/
def readFatInfo : Process FatInfo := do
  let bytsPerSec ← read16 11
  let secPerClus ← read8 13
  let rsvdSecCnt ← read16 14
  let numFATs ← read8 16
  let rootEntCnt ← read16 17
  let fatsz16 ← read16 22
  let fatSize ← readFatSize fatsz16
  if bytsPerSec = 0 then .halt .fault
  else
    let rootDirSectors :=
      (rootEntCnt.toNat * 32 + (bytsPerSec.toNat - 1)) / bytsPerSec.toNat
    let firstRootDirSecNum := rsvdSecCnt.toUInt32 + numFATs.toUInt32 * fatSize
    return {
      bytsPerSec, secPerClus, rsvdSecCnt, numFATs, rootEntCnt, fatSize, firstRootDirSecNum
      firstDataSector := firstRootDirSecNum + UInt32.ofNat rootDirSectors
      dirEntsPerCluster :=
        UInt16.ofNat (bytsPerSec.toNat * secPerClus.toNat / dirEntBytes) }

/-- Path names must be given in the form BLA1/BLA2/BLA3/. No argument asks for
printing the root directory. -/
def main (argv : List Bytes) : Process Unit := do
  if ← fopen imgName then
    let info ← readFatInfo
    match argv with
    | [_] => ls info info.firstRootDirSecNum (argument []) start
    | _ :: path :: _ => ls info info.firstRootDirSecNum (argument path) start
    | [] => .halt .fault
  else err inputErr (ascii "Cannot open " ++ imgName ++ ascii " for reading")

end Ti3.Fat.DriveLs
