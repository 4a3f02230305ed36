import Ti3.Tcp.TcpClient

namespace Ti3.Tcp.TcpServer

open Library.CString Library.CMemory Library.Interaction Library.Rules Library.Numerals
open TcpClient (SockAddr htons newline argError sockError)

def sendError : Nat := 4
def outputError : Nat := 6
def sigError : Nat := 7

def serverCancel : Bytes := ascii "Buggar off."
def backlogSize : Nat := 7

/-- `sizeof (struct sockaddr)` and `sizeof (struct sockaddr_in6)`. -/
def sockaddrSize : Nat := 16
def sockaddrIn6Size : Nat := 28

/-- The address of a client as it lies in memory: family and port with two bytes
each, flow information with four, the address with sixteen and the scope with four. -/
abbrev SockAddrIn6 := Buffer sockaddrIn6Size

def sin6Port (a : SockAddrIn6) : Bytes := (a.bytes.drop 2).take 2
def sin6Addr (a : SockAddrIn6) : Bytes := (a.bytes.drop 8).take 16

/-- The calls of the server. `sigint` asks whether SIGINT arrives before the next one. -/
inductive Call where
  | sigaction
  | sigint
  | fopen (path : Bytes)
  | socket
  | inetPton (text : Bytes)
  | bind (sockFd : Int) (sockAddr : SockAddr)
  | listen (sockFd : Int) (backlog : Nat)
  | accept (sockFd : Int) (size : Nat)
  | inetNtop (address : Bytes)
  | time
  | fprintf (file : Nat) (text : Bytes)
  | fflush (file : Nat)
  | send (sockFd : Int) (bytes : Bytes)
  | close (fd : Int)
  | fclose (file : Nat)

/-- `accept` answers with a descriptor and the address of the client. -/
abbrev Answer : Call → Type
  | .sigint => Bool
  | .fopen _ => Option Nat
  | .inetPton _ => Option Bytes
  | .accept _ _ => Option (Int × SockAddrIn6)
  | .inetNtop _ => Bytes
  | .sigaction | .socket | .bind _ _ | .listen _ _ | .time | .fprintf _ _ | .fflush _ | .send _ _
  | .close _ | .fclose _ => Int

/-- How the process ends: with a status and a message, or by undefined behaviour. -/
inductive Exit where
  | status (code : Nat) (message : Bytes)
  | fault
  deriving DecidableEq

abbrev Process := Program Call Answer Exit

def err {α : Type} (code : Nat) (message : Bytes) : Process α := .halt (.status code message)

/-- The global variables, null and zero in the beginning. -/
structure Globals where
  logfile : Option Nat
  sockFd : Int

/-- Shut the server down properly. There may be no log file yet. -/
def shutDown {α : Type} (globals : Globals) : Process α := do
  match globals.logfile with
  | none => .halt .fault
  | some logfile =>
    if (← ask (.fclose logfile)) = -1 then err outputError (ascii "Problem closing the logfile")
    else if (← ask (.close globals.sockFd)) = -1 then
      err sockError (ascii "Problem closing server's socket")
    else .halt (.status 0 [])

/-- A call of the library once the handler of SIGINT is installed. -/
def library (globals : Globals) (c : Call) : Process (Answer c) := do
  if (← ask .sigint) = true then shutDown globals else ask c

/-- The number in a port in network byte order. -/
def ntohs (port : Bytes) : Nat := port.foldl (fun n b => n * 256 + b.toNat) 0

def decimal (i : Int) : Bytes := ascii (toString i)

/-- Some information about a connection. The time is cut to an `int`. -/
def logLine (address port : Bytes) (time : Int) : Bytes :=
  ascii "A: " ++ address ++ ascii "\tP: " ++ decimal (ntohs port) ++ ascii "\tT: " ++
    decimal (time.bmod (2 ^ 32)) ++ ascii "\n"

/-- What is kept from one connection to the next: the address, and the room for it
as far as `accept` has been told. -/
structure State where
  clientAddress : SockAddrIn6
  sockaddrlen : Nat

def acceptStep (logfile : Nat) (sockFd : Int) (s : State) : Process (State ⊕ Unit) := do
  let globals := ⟨some logfile, sockFd⟩
  match ← library globals (.accept sockFd s.sockaddrlen) with
  | none => return .inr ()
  | some (clientSockFd, address) =>
    let clientAddress := s.clientAddress.fill (address.bytes.take s.sockaddrlen)
    let addrString ← library globals (.inetNtop (sin6Addr clientAddress))
    let time ← library globals .time
    let _ ← library globals (.fprintf logfile (logLine addrString (sin6Port clientAddress) time))
    let _ ← library globals (.fflush logfile)
    if (← library globals (.send clientSockFd (serverCancel ++ [0]))) = -1 then
      err sendError (ascii "Cannot send to the client")
    else if (← library globals (.close clientSockFd)) = -1 then
      err sockError (ascii "Error in closing connection")
    else return .inl ⟨clientAddress, sockaddrIn6Size⟩

/-- The server once its log file is open. The address of the first client is not
initialised. -/
def serve (clientAddress : SockAddrIn6) (addressText portText : Bytes) (logfile : Nat) :
    Process Unit := do
  let sockFd ← library ⟨some logfile, 0⟩ .socket
  let globals := ⟨some logfile, sockFd⟩
  if sockFd = -1 then err sockError (ascii "Cannot create socket")
  else match ← library globals (.inetPton addressText) with
  | none => err argError (ascii "Invalid IPv6 address given")
  | some address =>
    let sockAddr := { port := htons (UInt16.ofInt (atoi portText)), address }
    if (← library globals (.bind sockFd sockAddr)) = -1 then
      err sockError (ascii "Cannot bind socket")
    else if (← library globals (.listen sockFd backlogSize)) = -1 then
      err sockError (ascii "Cannot listen on socket")
    else .loop (acceptStep logfile sockFd) ⟨clientAddress, sockaddrSize⟩ .done

def main (clientAddress : SockAddrIn6) (argv : List Bytes) : Process Unit :=
  match argv with
  | [_, addressText, portText, logPath] => do
    if (← ask .sigaction) = -1 then err sigError (ascii "Cannot install handler for SIGINT")
    else match ← library ⟨none, 0⟩ (.fopen logPath) with
    | none => err outputError (ascii "Cannot open " ++ logPath ++ ascii " for appending")
    | some logfile => serve clientAddress addressText portText logfile
  | _ => err argError
    (ascii "Arguments: <IPv6 address> <port number> <path to logfile>")

end Ti3.Tcp.TcpServer
