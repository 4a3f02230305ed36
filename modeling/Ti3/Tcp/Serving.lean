import Ti3.Tcp.TcpServer

namespace Ti3.Tcp.Serving

open Library.CString Library.CMemory Library.Interaction Library.Rules TcpServer

/-- What the server sees: the clients behind its descriptors, those it has accepted and closed
in their order, the times it has asked for, what it has printed to the log, what each client
has been sent, and whether SIGINT has arrived or a call has not done all it should. -/
structure View (ι : Type) where
  fds : Int → Option ι
  accepted : List ι
  closed : List ι
  times : List Int
  log : List Bytes
  sent : ι → Bytes
  disturbed : Bool

/-- What a client is sent. -/
def farewell : Bytes := serverCancel ++ [0]

variable {ι : Type}

def View.start : View ι := ⟨fun _ => none, [], [], [], [], fun _ => [], false⟩

def View.disturb (v : View ι) : View ι := { v with disturbed := true }

def View.accept (v : View ι) (fd : Int) (i : ι) : View ι :=
  { v with fds := Function.update v.fds fd (some i), accepted := v.accepted ++ [i] }

def View.close (v : View ι) (fd : Int) : View ι :=
  { v with fds := Function.update v.fds fd none, closed := v.closed ++ (v.fds fd).toList }

def View.tick (v : View ι) (time : Int) : View ι := { v with times := v.times ++ [time] }

def View.print (v : View ι) (text : Bytes) : View ι := { v with log := v.log ++ [text] }

variable [DecidableEq ι]

def View.send (v : View ι) (i : ι) (bytes : Bytes) (k : Nat) : View ι :=
  { v with
    sent := Function.update v.sent i (v.sent i ++ bytes.take k)
    disturbed := v.disturbed || decide (k < bytes.length) }

/-- The library for the server. Any call may fail, and a message may be sent in part. -/
def serverCalls (peer : ι → SockAddrIn6) (ntop : Bytes → Bytes) :
    Environment Call Answer (View ι) := fun v c a v' =>
  match c, a with
  | .sigint, a => (a = false ∧ v' = v) ∨ (a = true ∧ v' = v.disturb)
  | .accept _ _, a => (a = none ∧ v' = v.disturb) ∨ ∃ fd i, a = some (fd, peer i) ∧
      v.fds fd = none ∧ i ∉ v.accepted ∧ v' = v.accept fd i
  | .inetNtop address, a => a = ntop address ∧ v' = v
  | .time, a => v' = v.tick a
  | .fprintf _ text, _ => v' = v.print text
  | .send fd bytes, a => (a = -1 ∧ v' = v.disturb) ∨ ∃ i k, v.fds fd = some i ∧
      k ≤ bytes.length ∧ a = (k : Int) ∧ v' = v.send i bytes k
  | .close fd, a => (a = -1 ∧ v' = v.disturb) ∨ (a = 0 ∧ v' = v.close fd)
  | .sigaction, _ | .fopen _, _ | .socket, _ | .inetPton _, _ | .bind _ _, _ | .listen _ _, _
  | .fflush _, _ | .fclose _, _ => v' = v

/-- The addresses as the server has them. Of the first one only the first sixteen bytes are
stored, because `sizeof (struct sockaddr)` is the room that `accept` is told about; `accept`
then tells how much it would have needed. -/
def seen (peer : ι → SockAddrIn6) (stale : SockAddrIn6) : List ι → List SockAddrIn6
  | [] => []
  | i :: is => stale.fill ((peer i).bytes.take sockaddrSize) :: is.map peer

/-- One line for every connection. -/
def logLines (peer : ι → SockAddrIn6) (ntop : Bytes → Bytes) (stale : SockAddrIn6)
    (accepted : List ι) (times : List Int) : List Bytes :=
  List.zipWith (fun a time => logLine (ntop (sin6Addr a)) (sin6Port a) time)
    (seen peer stale accepted) times

/-- The clients are served one after the other: all but the current one are closed, and with
nothing in the way they have been sent the whole message before. At most the line of the last
connection is missing in the log. -/
structure Orderly (peer : ι → SockAddrIn6) (ntop : Bytes → Bytes) (stale : SockAddrIn6)
    (v : View ι) (current : Option (Int × ι)) : Prop where
  split : v.accepted = v.closed ++ (current.map Prod.snd).toList
  fds : ∀ fd i, v.fds fd = some i → current = some (fd, i)
  sent : ∀ i, v.sent i <+: farewell
  only : ∀ i, i ∉ v.accepted → v.sent i = []
  whole : v.disturbed = false → ∀ i ∈ v.closed, v.sent i = farewell
  logged : v.log <+: logLines peer ntop stale v.accepted v.times
  behind : v.accepted.length ≤ v.log.length + 1

section

variable {peer : ι → SockAddrIn6} {ntop : Bytes → Bytes} {stale : SockAddrIn6} {v : View ι}
variable {current : Option (Int × ι)} {i : ι} {fd : Int}

end

section server

variable {peer : ι → SockAddrIn6} {ntop : Bytes → Bytes} {stale : SockAddrIn6} {v : View ι}
variable {current : Option (Int × ι)} {logfile : Nat} {sockFd : Int}

variable {argv : List Bytes}

/-- What is the case whenever and however the server ends. -/
def Served (peer : ι → SockAddrIn6) (ntop : Bytes → Bytes) (stale : SockAddrIn6)
    (o : Outcome Exit Unit) (v : View ι) : Prop :=
  (∃ current, Orderly peer ntop stale v current) ∧ (o = .halted .fault → v.accepted = [])

end server

end Ti3.Tcp.Serving
