import Ti3.Tr.Signals

namespace Ti3.Tr.Route

open Library.CString Library.CMemory Library.Inet Library.Interaction Library.Rules
open Library.Concurrency PseudoTr Signals

/-- A datagram with the TTL it was sent with. -/
structure Probe where
  ttl : Option Nat
  bytes : Bytes
  sockAddr : SockAddr
  deriving DecidableEq

/-- The TTL that the socket of the parent has been given, and what has been sent on it. -/
structure Sending where
  ttl : Option Nat
  sent : List Probe

def Sending.note (v : Sending) : (c : Call) → Answer c → Sending
  | .setsockopt _ ttl, a => if a = -1 then v else { v with ttl := some ttl }
  | .sendto _ bytes sockAddr, a =>
    if a = -1 then v else { v with sent := v.sent ++ [⟨v.ttl, bytes, sockAddr⟩] }
  | _, _ => v

/-- What the child has given to `printf`, whether `recvfrom` has answered that nothing more
comes, and the status of its exit. -/
structure Listening where
  printed : Bytes
  ended : Bool
  status : Option Nat

def Listening.note (v : Listening) : (c : Call) → Answer c → Listening
  | .printf text, _ => { v with printed := v.printed ++ text }
  | .recvfrom _ _, a => if a = some [] then { v with ended := true } else v
  | .exit code _, _ => { v with status := some code }
  | _, _ => v

structure World where
  signals : Signals.World
  sending : Sending
  listening : Listening

/-- The calls of both processes are noted. -/
def environment : Party → Environment Call Answer World
  | .parent => fun w c a w' => Signals.environment .parent w.signals c a w'.signals ∧
      w'.sending = w.sending.note c a ∧ w'.listening = w.listening
  | .child => fun w c a w' => Signals.environment .child w.signals c a w'.signals ∧
      w'.sending = w.sending ∧ w'.listening = w.listening.note c a

abbrev System := Configuration Call Answer Exit Unit World Party

def start (buffer : Buffer bufsize) (argv : List Bytes) : System where
  programs _ := main buffer argv
  world := ⟨(Signals.start buffer argv).world, ⟨none, []⟩, ⟨[], false, none⟩⟩

/-- Probes to an address, with the TTLs from 1 on. -/
def probes (address : Address) (k : Nat) : List Probe :=
  (List.range k).map (fun i => ⟨some (i + 1), data, ⟨dPort, address⟩⟩)

section parent

/-- What the parent sees: the flag, and what it sends. -/
structure Probing where
  gotSIGCHLD : Bool
  sending : Sending

/-- The first probes have been sent, in order. -/
def Traced (finalAddress : Bytes) (sent : List Probe) : Prop :=
  sent = [] ∨ ∃ address k, inetAton finalAddress = some address ∧ k ≤ maxTtl ∧
    sent = probes address k

/-- The parent returns after the last probe, and exits without an error after SIGCHLD. -/
def Probed (finalAddress : Bytes) (o : Outcome Exit Unit) (v : Probing) : Prop :=
  Traced finalAddress v.sending.sent ∧ (o = .returned () → v.sending.sent.length = maxTtl) ∧
    ∀ message, o = .halted ⟨0, message⟩ → v.gotSIGCHLD = true

variable {finalAddress : Bytes} {v : Probing} {code : Nat} {message : Bytes}

end parent

section child

/-- What the child sees: what it receives, and what it does with it. -/
structure Hearing where
  received : List Packet
  listening : Listening

/-- The lines that are printed for packets. -/
def reports (packets : List Packet) : Bytes :=
  packets.flatMap (fun p => inetNtoa p.source ++ [newline])

/-- Of all packets but the last, which may be on its way, the senders have been printed, and
none of them is the destination. -/
structure Relayed (finalAddress : Bytes) (v : Hearing) : Prop where
  printed : v.listening.printed = reports v.received ∨
    v.listening.printed = reports v.received.dropLast
  others : ∀ p ∈ v.received.dropLast, inetNtoa p.source ≠ finalAddress
  whole : v.listening.status ≠ none → v.listening.printed = reports v.received
  answered : v.listening.status = some 0 →
    v.listening.ended = true ∨ ∃ p ∈ v.received.getLast?, inetNtoa p.source = finalAddress

variable {finalAddress : Bytes} {v : Hearing} {inSock : Int} {buffer : Buffer bufsize}

end child

/-- A signal may be delivered, and no packet comes in. -/
structure Delivers (w w' : Signals.World) : Prop where
  received : w'.received = w.received
  keeps : w.gotSIGCHLD = true → w'.gotSIGCHLD = true
  signal : w'.pending = true ∨ w'.gotSIGCHLD = true → w.pending = true ∨ w.gotSIGCHLD = true

/-- There is no signal from a child that runs. -/
def Heard (w : World) : Prop :=
  w.signals.pending = true ∨ w.signals.gotSIGCHLD = true → w.listening.status ≠ none

variable {buffer : Buffer bufsize} {prog finalAddress : Bytes} {C : System}

/-- All calls succeed. -/
def cooperate (i : Party) (w : World) (c : Call) : Option (Answer c × World) :=
  (Signals.cooperate i w.signals c).map (fun r => (r.1, match i with
    | .parent => ⟨r.2, w.sending.note c r.1, w.listening⟩
    | .child => ⟨r.2, w.sending, w.listening.note c r.1⟩))

theorem cooperate_allowed (i : Party) (w : World) (c : Call) (a : Answer c) (w' : World)
    (h : cooperate i w c = some (a, w')) : environment i w c a w' := by
  obtain ⟨⟨a', signals⟩, hr, hw⟩ := Option.map_eq_some_iff.mp h
  obtain ⟨rfl, rfl⟩ := Prod.mk.inj hw
  have hsignals := Signals.cooperate_allowed i _ _ _ _ hr
  cases i with
  | parent | child => exact ⟨hsignals, rfl, rfl⟩

/-- Both processes look for `127.0.0.1`, and take their steps in a given order. -/
def scheduled (schedule : List Party) : System :=
  schedule.foldl (fun C i => advance cooperate i C)
    (start (Buffer.zeros bufsize) [ascii "pseudo-tr", ascii "127.0.0.1"])

/-- The destination answers the first probe, and the parent stops after the second. -/
def answered : List Party := inTime ++ List.replicate 8 .parent

end Ti3.Tr.Route
