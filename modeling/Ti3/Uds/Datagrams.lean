import Ti3.Library.CMemory
import Ti3.Library.Interaction

namespace Ti3.Uds.Datagrams

open Library.CString Library.CMemory Library.Interaction

def argError : Nat := 1
def sockError : Nat := 2
def recvError : Nat := 3
def sendError : Nat := 4
def inputError : Nat := 5

def bufsize : Nat := 1024

/-- The calls of the client and of the server. -/
inductive Call where
  | socket
  | bind (sockFd : Int) (mineAddr : Buffer 108)
  | fgets (size : Nat)
  | ferror
  | sendto (sockFd : Int) (bytes : Bytes) (thineAddr : Buffer 108)
  | recv (sockFd : Int) (size : Nat)
  | fputs (text : Bytes)
  deriving DecidableEq

/-- `fgets` and `recv` answer with the bytes that they store, if there are any. -/
abbrev Answer : Call → Type
  | .socket | .bind _ _ | .sendto _ _ _ | .fputs _ => Int
  | .fgets _ | .recv _ _ => Option Bytes
  | .ferror => Bool

/-- How a process ends: with a status and a message, or by reading behind its
buffer. -/
inductive Exit where
  | status (code : Nat) (message : Bytes)
  | fault
  deriving DecidableEq

abbrev Process := Program Call Answer Exit

def err {α : Type} (code : Nat) (message : Bytes) : Process α := .halt (.status code message)

def errIf (failed : Prop) [Decidable failed] (code : Nat) (message : Bytes) : Process Unit :=
  if failed then err code message else pure ()

def library (c : Call) : Process (Answer c) := ask c

def socket : Process Int := library .socket
def bind (sockFd : Int) (mineAddr : Buffer 108) : Process Int := library (.bind sockFd mineAddr)
def fgets (size : Nat) : Process (Option Bytes) := library (.fgets size)
def ferror : Process Bool := library .ferror
def sendto (sockFd : Int) (bytes : Bytes) (thineAddr : Buffer 108) : Process Int :=
  library (.sendto sockFd bytes thineAddr)
def recv (sockFd : Int) (size : Nat) : Process (Option Bytes) := library (.recv sockFd size)
def fputs (text : Bytes) : Process Int := library (.fputs text)

/-- `strncpy` into the zeroed `sun_path`. -/
def sunPath (path : Bytes) : Buffer 108 := (Buffer.zeros 108).fill (path.take 107)

/-- A line is read over what the buffer holds, and the whole buffer is sent. -/
def sendStep (sockFd : Int) (path : Bytes) (buffer : Buffer bufsize) :
    Process (Buffer bufsize ⊕ Unit) := do
  match ← fgets bufsize with
  | none => return .inr ()
  | some line =>
    let buffer := buffer.fill (line ++ [0])
    errIf ((← sendto sockFd buffer.bytes (sunPath path)) = -1) sendError
      (ascii "Cannot send to " ++ path)
    return .inl buffer

/-- The client. Its buffer is not initialised. -/
def client (buffer : Buffer bufsize) (argv : List Bytes) : Process Unit :=
  match argv with
  | [_, path] => do
    let sockFd ← socket
    errIf (sockFd = -1) sockError (ascii "Cannot open socket")
    .loop (sendStep sockFd path) buffer .done
    errIf ((← ferror) = true) inputError (ascii "Error reading from standard input")
  | _ => err argError (ascii "Socket file path must be only argument")

/-- A datagram is received over what the buffer holds, and printed as a string. -/
def receiveStep (sockFd : Int) (buffer : Buffer bufsize) : Process (Buffer bufsize ⊕ Int) := do
  match ← recv sockFd bufsize with
  | none => return .inr (-1)
  | some bytes =>
    let buffer := buffer.fill bytes
    if 0 < bytes.length then
      match buffer.string (.inside 0) with
      | none => .halt .fault
      | some text =>
        let _ ← fputs text
        return .inl buffer
    else return .inr 0

def server (buffer : Buffer bufsize) (argv : List Bytes) : Process Unit :=
  match argv with
  | [_, path] => do
    let sockFd ← socket
    errIf (sockFd = -1) sockError (ascii "Cannot open socket")
    errIf ((← bind sockFd (sunPath path)) = -1) sockError (ascii "Cannot bind socket to " ++ path)
    let recvRet ← .loop (receiveStep sockFd) buffer .done
    errIf (recvRet ≤ 0) recvError (ascii "Error in reception")
  | _ => err argError (ascii "Socket file path must be only argument")

end Ti3.Uds.Datagrams
