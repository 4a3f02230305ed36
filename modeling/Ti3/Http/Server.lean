import Ti3.Library.CMemory
import Ti3.Library.Interaction
import Ti3.Library.Linked

namespace Ti3.Http.Server

open Library.CString Library.CMemory Library.Interaction Library.Linked

def exitOk : Nat := 0
def errSelect : Nat := 2
def errShutdown : Nat := 3

inductive Status where
  | status400
  | status501
  | status404
  | status500
  deriving DecidableEq

def Status.msg : Status → Bytes
  | status400 => ascii "400 Bad Request"
  | status501 => ascii "501 Not Implemented"
  | status404 => ascii "404 Not Found"
  | status500 => ascii "500 Internal Server Error"

def maxClientCnt : Int := 50
def maxRequestLineLen : Nat := 500
def maxMimeLen : Nat := 10
def bufsize : Nat := 1024

inductive Errno where
  | eintr
  | enoent
  | other
  deriving DecidableEq

/-- The arrays that are handed to `send`. -/
inductive Source where
  | header
  | buf
  | msg
  deriving DecidableEq

/-- What `pselect` leaves behind: an error, the flag that the handler of SIGINT
sets while it waits, and the descriptors left in the set. -/
structure Selected where
  error : Option Errno
  gotSigint : Bool
  readfds : List Int
  deriving DecidableEq

/-- The library calls of the server. `staleNext` reads the link of a list node
that has been freed. -/
inductive Call where
  | pselect (nfds : Int) (readfds : List Int)
  | accept (sockFd : Int)
  | read (fd : Int) (count : Nat)
  | send (fd : Int) (source : Source) (bytes : Bytes)
  | close (fd : Int)
  | stat (path : Bytes)
  | fopen (path : Bytes)
  | fread (file : Nat) (count : Nat)
  | ferror (file : Nat)
  | fclose (file : Nat)
  | staleNext (address : Nat)
  deriving DecidableEq

abbrev Answer : Call → Type
  | .pselect _ _ => Selected
  | .accept _ | .send _ _ _ | .close _ | .fclose _ => Int
  | .read _ _ => Option Bytes
  | .stat _ => Except Errno Int
  | .fopen _ => Except Errno Nat
  | .fread _ _ => Bytes
  | .ferror _ => Bool
  | .staleNext _ => Option Nat

/-- How the process ends: with a status and a message, or by undefined
behaviour. -/
inductive Exit where
  | status (code : Nat) (message : Bytes)
  | fault
  deriving DecidableEq

abbrev Process := Program Call Answer Exit

def library (c : Call) : Process (Answer c) := ask c

def pselect (nfds : Int) (readfds : List Int) : Process Selected := library (.pselect nfds readfds)
def accept (sockFd : Int) : Process Int := library (.accept sockFd)
def read (fd : Int) (count : Nat) : Process (Option Bytes) := library (.read fd count)
def send (fd : Int) (source : Source) (bytes : Bytes) : Process Int :=
  library (.send fd source bytes)
def close (fd : Int) : Process Int := library (.close fd)
def stat (path : Bytes) : Process (Except Errno Int) := library (.stat path)
def fopen (path : Bytes) : Process (Except Errno Nat) := library (.fopen path)
def fread (file : Nat) (count : Nat) : Process Bytes := library (.fread file count)
def ferror (file : Nat) : Process Bool := library (.ferror file)
def fclose (file : Nat) : Process Int := library (.fclose file)
def staleNext (address : Nat) : Process (Option Nat) := library (.staleNext address)

/-- Memory accesses without a result are undefined behaviour. -/
def access {α : Type} : Option α → Process α
  | some a => pure a
  | none => .halt .fault

def start : Pointer := .inside 0

def newline : UInt8 := 10
def slash : UInt8 := 47
def blank : UInt8 := 32
def dot : UInt8 := 46

def msgLen (statusMsg : Bytes) : Nat :=
  8 + 1 + statusMsg.length + 1 + 13 + 1 + 10 + 1 + 17 + 1 + 15 + 1 + 1 + 1 + 1 + 6 + 1

/-- The status line with the rest of an error response. -/
def message (statusMsg : Bytes) : Option Bytes := do
  let msg := Buffer.zeros (msgLen statusMsg + 1)
  let msg ← msg.strcpy start (ascii "HTTP/1.1 ")
  let msg ← msg.strcat start statusMsg
  let msg ← msg.strcat start (ascii "\n")
  let msg ← msg.strcat start (ascii "Content-Type: text/plain\n")
  let msg ← msg.strcat start (ascii "Content-Length: 7\n")
  let msg ← msg.strcat start (ascii "Connection: close\n\n")
  let msg ← msg.strcat start (ascii "Error.\n")
  return msg.bytes

def respond (status : Status) (sockFd : Int) : Process Unit := do
  let msg ← access (message status.msg)
  let _ ← send sockFd .msg msg
  let _ ← close sockFd

abbrev RequestLine := Buffer (maxRequestLineLen + 1)

/-- What `read` makes of the array, with the terminating zero behind it. -/
def readInto (requestLine : RequestLine) (bytes : Bytes) : Option RequestLine :=
  (requestLine.fill bytes).store 0 (.inside maxRequestLineLen)

inductive Request where
  | rejected (status : Status)
  | accepted (uri : Bytes)
  deriving DecidableEq

/-- Use `index.html` as URI if only `/` was specified. -/
def defaultUri (requestLine : RequestLine) (uri : Pointer) : Option (RequestLine × Request) := do
  if (← requestLine.string uri) = [] then
    let requestLine ← requestLine.strcpy uri (ascii "index.html")
    return (requestLine, .accepted (← requestLine.string uri))
  else return (requestLine, .accepted (← requestLine.string uri))

/-- Reject non-HTTP/1.0 requests. -/
def checkVersion (requestLine : RequestLine) (uri : Pointer) : Option (RequestLine × Request) := do
  let httpVersion := (← requestLine.strchr uri blank).move 1
  let requestLine ← requestLine.store 0 (httpVersion.move (-1))
  let versionDot ← requestLine.strchr httpVersion dot
  let requestLine ← requestLine.store 0 (versionDot.move 2)
  if (← requestLine.string httpVersion) ≠ ascii "HTTP/1.0" then
    return (requestLine, .rejected .status501)
  else defaultUri requestLine uri

/-- Reject everything that isn't a GET request. -/
def checkMethod (requestLine : RequestLine) : Option (RequestLine × Request) := do
  let uri := (← requestLine.strchr start slash).move 1
  let requestLine ← requestLine.store 0 (uri.move (-2))
  if (← requestLine.string start) ≠ ascii "GET" then
    return (requestLine, .rejected .status501)
  else checkVersion requestLine uri

/-- From the search for the end of the line to the substitution of
`index.html`. -/
def parseRequest (requestLine : RequestLine) : Option (RequestLine × Request) := do
  match ← requestLine.strchr start newline with
  | .null _ => return (requestLine, .rejected .status400)
  | .inside endOfRline => checkMethod (← requestLine.store 0 (.inside (endOfRline + 1)))

/-- What `mime_type` holds after a copy into it. -/
def mime (name : Bytes) : Option Bytes := do
  let mimeType ← (Buffer.zeros (maxMimeLen + 1)).strcpy start name
  mimeType.string start

/-- The MIME type for a file name, if its extension is known. -/
def guessMimeType (uri : Bytes) : Option (Option Bytes) := do
  let filenameExt ← (lastIndex dot uri).map (fun k => uri.drop (k + 1))
  if filenameExt = ascii "html" ∨ filenameExt = ascii "htm" then
    return some (← mime (ascii "text/html"))
  else if filenameExt = ascii "jpeg" ∨ filenameExt = ascii "jpg" then
    return some (← mime (ascii "image/jpeg"))
  else if filenameExt = ascii "gif" then return some (← mime (ascii "image/gif"))
  else return none

/-- A file that is going to be sent. -/
structure Served where
  uri : Bytes
  mimeType : Bytes
  size : Int

/-- From the request line to the MIME type; an error has been answered when
there is no file to send. -/
def handleRequest (clientFd : Int) (requestLine : RequestLine) :
    Process (RequestLine × Option Served) := do
  let (requestLine, request) ← access (parseRequest requestLine)
  match request with
  | .rejected status =>
    respond status clientFd
    return (requestLine, none)
  | .accepted uri =>
    match ← stat uri with
    | .error .enoent =>
      respond .status404 clientFd
      return (requestLine, none)
    | .error _ =>
      respond .status500 clientFd
      return (requestLine, none)
    | .ok size =>
      match ← access (guessMimeType uri) with
      | some mimeType => return (requestLine, some ⟨uri, mimeType, size⟩)
      | none =>
        respond .status400 clientFd
        return (requestLine, none)

def decimal (i : Int) : Bytes := ascii (toString i)

def headerLen : Nat :=
  8 + 1 + 3 + 1 + 2 + 1 + 13 + 1 + maxMimeLen + 1 + 17 + 1 + 15 + 1 + 20 + 1 + 1

def header (mimeType : Bytes) (size : Int) : Option Bytes := do
  let header ← (Buffer.zeros (headerLen + 1)).strcpy start
    (ascii "HTTP/1.0 200 OK\n" ++ ascii "Content-Type: " ++ mimeType ++ ascii "\n" ++
      ascii "Connection: close\n" ++ ascii "Content-Length: " ++ decimal size ++ ascii "\n" ++
      ascii "\n")
  header.string start

def transferStep (clientFd : Int) (infile : Nat) : Unit → Process (Unit ⊕ Unit) := fun _ => do
  let buf ← fread infile bufsize
  if buf = [] then return .inr ()
  else
    let _ ← send clientFd .buf buf
    return .inl ()

def respondIf (failed : Bool) (status : Status) (clientFd : Int) : Process Unit :=
  if failed then respond status clientFd else pure ()

def sendFile (clientFd : Int) (served : Served) : Process Unit := do
  let header ← access (header served.mimeType served.size)
  if (← send clientFd .header header) ≠ header.length then return ()
  else
    match ← fopen served.uri with
    | .error .enoent => respond .status404 clientFd
    | .error _ => respond .status500 clientFd
    | .ok infile =>
      .loop (transferStep clientFd infile) () .done
      respondIf (← ferror infile) .status500 clientFd
      let _ ← fclose infile
      let _ ← close clientFd

/-- The variables of the main loop. The storage of `request_line` is kept from
one request to the next. -/
structure State where
  maxFd : Int
  clientFds : LinkedList Int
  clientCnt : Int
  requestLine : RequestLine

def State.start (sockFd : Int) (requestLine : RequestLine) : State :=
  ⟨sockFd, .empty, 0, requestLine⟩

def closeIf (failed : Bool) (clientFd : Int) : Process Unit := do
  if failed then
    let _ ← close clientFd

/-- What is done for a client whose request has been read. After a failed read
the line holds what it held before. -/
def serveRead (s : State) (clientFd : Int) (bytes : Option Bytes) : Process State := do
  closeIf bytes.isNone clientFd
  let s := { s with clientFds := s.clientFds.remove clientFd, clientCnt := s.clientCnt - 1 }
  let requestLine ← access (readInto s.requestLine (bytes.getD []))
  let (requestLine, served) ← handleRequest clientFd requestLine
  match served with
  | none => return { s with requestLine := requestLine }
  | some served =>
    sendFile clientFd served
    return { s with requestLine := requestLine }

def serveClient (readfds : List Int) (s : State) (clientFd : Int) : Process State := do
  if clientFd ∈ readfds then
    match ← read clientFd maxRequestLineLen with
    | some [] => return s
    | bytes => serveRead s clientFd bytes
  else return s

/-- `g_slist_next` of a node that may have been freed. -/
def slistNext (clientFds : LinkedList Int) (curClient : Nat) : Process (Option Nat) :=
  match clientFds.next curClient with
  | some next => pure next
  | none => staleNext curClient

def walkStep (readfds : List Int) : State × Option Nat → Process ((State × Option Nat) ⊕ State)
  | (s, none) => return .inr s
  | (s, some curClient) =>
    match s.clientFds.nodeAt curClient with
    | none => .halt .fault
    | some node => do
      let s ← serveClient readfds s node.data
      return .inl (s, ← slistNext s.clientFds curClient)

def closeAll : List Int → Bool → Process Bool
  | [], isProperShutdown => return isProperShutdown
  | clientFd :: clientFds, isProperShutdown => do
    let closed ← close clientFd
    closeAll clientFds (isProperShutdown && closed ≠ -1)

def shutDown {α : Type} (sockFd : Int) (clientFds : LinkedList Int) : Process α := do
  let isProperShutdown ← closeAll clientFds.values true
  let closed ← close sockFd
  if isProperShutdown && closed ≠ -1 then .halt (.status exitOk [])
  else .halt (.status errShutdown [])

/-- The main loop up to the walk over the clients. -/
def awaitEvents (sockFd : Int) (s : State) : Process (List Int × State) := do
  let selected ← pselect (s.maxFd + 1) (sockFd :: s.clientFds.values)
  if selected.error ≠ none ∧ selected.error ≠ some .eintr then
    .halt (.status errSelect (ascii "Error during select"))
  else if selected.gotSigint then shutDown sockFd s.clientFds
  else if sockFd ∈ selected.readfds ∧ s.clientCnt < maxClientCnt then
    let clientSockFd ← accept sockFd
    return (selected.readfds, { s with
      clientFds := s.clientFds.prepend clientSockFd
      clientCnt := s.clientCnt + 1
      maxFd := max s.maxFd clientSockFd })
  else return (selected.readfds, s)

def mainStep (sockFd : Int) (s : State) : Process (State ⊕ Unit) := do
  let (readfds, s) ← awaitEvents sockFd s
  .loop (walkStep readfds) (s, s.clientFds.first) (fun s => return .inl s)

/-- The server once it listens on its socket. -/
def serve (sockFd : Int) (requestLine : RequestLine) : Process Unit :=
  .loop (mainStep sockFd) (State.start sockFd requestLine) .done

end Ti3.Http.Server
