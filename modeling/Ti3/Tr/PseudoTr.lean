import Ti3.Library.CMemory
import Ti3.Library.Inet
import Ti3.Library.Rules

namespace Ti3.Tr.PseudoTr

open Library.CString Library.CMemory Library.Inet Library.Interaction Library.Rules

def errSocket : Nat := 1
def errRecv : Nat := 2
def errArg : Nat := 3
def errFork : Nat := 4
def errSend : Nat := 5
def errSignal : Nat := 6

def bufsize : Nat := 1024
def dPort : Nat := 80
def maxTtl : Nat := 30

/-- `DATA` with its terminating zero. -/
def data : Bytes := ascii "What-ho!" ++ [0]

def newline : UInt8 := 10

/-- A socket that receives ICMP packets, or one that sends datagrams. -/
inductive SocketType where
  | raw
  | dgram
  deriving DecidableEq

structure SockAddr where
  port : Nat
  address : Address
  deriving DecidableEq

/-- The calls of the parent and of the child. Reading the flag that the signal
handler sets is one of them. -/
inductive Call where
  | fork
  | socket (type : SocketType)
  | recvfrom (inSock : Int) (size : Nat)
  | printf (text : Bytes)
  | sigaction
  | gotSIGCHLD
  | setsockopt (outSock : Int) (ttl : Nat)
  | sendto (outSock : Int) (bytes : Bytes) (sockAddr : SockAddr)
  | sleep (seconds : Nat)
  | close (fd : Int)
  | exit (code : Nat) (message : Bytes)
  deriving DecidableEq

/-- `recvfrom` answers with the bytes that it stores, if there are any. -/
abbrev Answer : Call → Type
  | .fork | .socket _ | .printf _ | .sigaction | .setsockopt _ _ | .sendto _ _ _ | .sleep _
  | .close _ => Int
  | .recvfrom _ _ => Option Bytes
  | .gotSIGCHLD => Bool
  | .exit _ _ => Unit

/-- How a process ends before `main` returns. -/
structure Exit where
  code : Nat
  message : Bytes
  deriving DecidableEq

abbrev Process := Program Call Answer Exit

def library (c : Call) : Process (Answer c) := ask c

def fork : Process Int := library .fork
def socket (type : SocketType) : Process Int := library (.socket type)
def recvfrom (inSock : Int) (size : Nat) : Process (Option Bytes) :=
  library (.recvfrom inSock size)
def printf (text : Bytes) : Process Int := library (.printf text)
def sigaction : Process Int := library .sigaction
def gotSIGCHLD : Process Bool := library .gotSIGCHLD
def setsockopt (outSock : Int) (ttl : Nat) : Process Int := library (.setsockopt outSock ttl)
def sendto (outSock : Int) (bytes : Bytes) (sockAddr : SockAddr) : Process Int :=
  library (.sendto outSock bytes sockAddr)
def sleep (seconds : Nat) : Process Int := library (.sleep seconds)
def close (fd : Int) : Process Int := library (.close fd)

/-- `exit`, and `err` and `errx` with a message. -/
def exit {α : Type} (code : Nat) (message : Bytes) : Process α :=
  .call (.exit code message) (fun _ => .halt ⟨code, message⟩)

def exitIf (failed : Prop) [Decidable failed] (code : Nat) (message : Bytes) : Process Unit :=
  if failed then exit code message else pure ()

/-- `saddr` of the IP header that the buffer starts with. -/
def saddr (buffer : Buffer bufsize) : Address :=
  ⟨buffer.bytes.getD 12 0, buffer.bytes.getD 13 0, buffer.bytes.getD 14 0, buffer.bytes.getD 15 0⟩

/-- A packet is received over what the buffer holds, and its sender is printed. -/
def receiveStep (inSock : Int) (finalAddress : Bytes) (buffer : Buffer bufsize) :
    Process (Buffer bufsize ⊕ Empty) := do
  match ← recvfrom inSock bufsize with
  | none => exit errRecv (ascii "Error receiving from ICMP socket")
  | some [] => exit 0 []
  | some (b :: bytes) =>
    let buffer := buffer.fill (b :: bytes)
    let ipAddress := inetNtoa (saddr buffer)
    let _ ← printf (ipAddress ++ [newline])
    -- Stop if we got through to the destination.
    if ipAddress = finalAddress then do
      exitIf ((← close inSock) = -1) errSocket (ascii "Problem closing socket")
      exit 0 []
    else return .inl buffer

/-- Receive all ICMP packets sent to this computer. The buffer is not initialised. -/
def receive (inSock : Int) (finalAddress : Bytes) (buffer : Buffer bufsize) : Process Unit :=
  .loop (receiveStep inSock finalAddress) buffer nofun

def child (buffer : Buffer bufsize) (finalAddress : Bytes) : Process Unit := do
  let inSock ← socket .raw
  exitIf (inSock = -1) errSocket (ascii "Cannot open raw socket")
  receive inSock finalAddress buffer

/-- One probe, unless the child has come to its end. -/
def probeStep (outSock : Int) (sockAddr : SockAddr) (ttl : Nat) : Process (Nat ⊕ Unit) :=
  if ttl ≤ maxTtl then do
    if ← gotSIGCHLD then
      exitIf ((← close outSock) = -1) errSocket (ascii "Problem closing socket")
      exit 0 []
    else
      exitIf ((← setsockopt outSock ttl) = -1) errSocket (ascii "Cannot set TTL")
      exitIf ((← sendto outSock data sockAddr) ≠ data.length) errSend
        (ascii "Problem sending to socket")
      let _ ← sleep 1
      return .inl (ttl + 1)
  else return .inr ()

/-- Send UDP packets with increasing TTLs. -/
def parent (finalAddress : Bytes) : Process Unit := do
  exitIf ((← sigaction) = -1) errSignal (ascii "Cannot install handler for SIGCHLD")
  let outSock ← socket .dgram
  exitIf (outSock = -1) errSocket (ascii "Cannot open output socket")
  match inetAton finalAddress with
  | none => exit errArg (ascii "Invalid IP address: " ++ finalAddress)
  | some address => .loop (probeStep outSock ⟨dPort, address⟩) 1 .done

def main (buffer : Buffer bufsize) (argv : List Bytes) : Process Unit :=
  match argv with
  | [_, finalAddress] => do
    let pid ← fork
    if pid = 0 then child buffer finalAddress
    else if pid ≠ -1 then parent finalAddress
    else exit errFork (ascii "Cannot fork")
  | _ => exit errArg (ascii "Usage: pseudo-tr <destination ip address>")

/-- An IP packet, which is at least as long as its header. -/
structure Packet where
  bytes : Bytes
  header : 20 ≤ bytes.length

/-- The source address of a packet. -/
def Packet.source (p : Packet) : Address :=
  ⟨p.bytes.getD 12 0, p.bytes.getD 13 0, p.bytes.getD 14 0, p.bytes.getD 15 0⟩

/-- A packet with nothing in it but its source. -/
def packetFrom (x : Address) : Packet where
  bytes := List.replicate 12 0 ++ [x.a, x.b, x.c, x.d] ++ List.replicate 4 0
  header := by simp

section

variable {α σ : Type} {env : Environment Call Answer σ} {w : σ}
variable {P : Outcome Exit α → σ → Prop} {code : Nat} {message : Bytes}

theorem guarantees_exit (hc : P .cut w) (he : ∀ a w', env w (.exit code message) a w' →
    P .cut w' ∧ P (.halted ⟨code, message⟩) w') : Guarantees env (exit code message) w P :=
  guarantees_call.mpr ⟨hc, fun a w' ha => guarantees_halt.mpr (he a w' ha)⟩

theorem guarantees_exitIf {failed : Prop} [Decidable failed] {k : Process α}
    (he : failed → Guarantees env (exit code message) w P)
    (hk : ¬ failed → Guarantees env k w P) :
    Guarantees env (do exitIf failed code message; k) w P := by
  by_cases hf : failed
  · rw [exitIf, if_pos hf]
    exact he hf
  · rw [exitIf, if_neg hf]
    exact hk hf

end

variable {buffer : Buffer bufsize}

theorem Packet.take_ne_nil (p : Packet) : p.bytes.take bufsize ≠ [] := by
  have hlen := p.header
  apply List.ne_nil_of_length_pos
  rw [List.length_take, bufsize]
  omega

/-- Whatever the buffer held, its header is the one of the packet received last. -/
theorem saddr_fill (p : Packet) : saddr (buffer.fill (p.bytes.take bufsize)) = p.source := by
  have hlen := p.header
  have hfits : (p.bytes.take bufsize).length ≤ bufsize := List.length_take_le _ _
  have hbyte : ∀ k < 20, (buffer.fill (p.bytes.take bufsize)).bytes.getD k 0 =
      p.bytes.getD k 0 := by
    intro k hk
    have hin : k < (p.bytes.take bufsize).length := by
      rw [List.length_take, bufsize]
      omega
    have hbuf : k < bufsize := Nat.lt_trans hk (by decide)
    rw [List.getD_eq_getElem?_getD, List.getD_eq_getElem?_getD, fill_fits hfits,
      List.getElem?_append_left hin, List.getElem?_take_of_lt hbuf]
  simp only [saddr, Packet.source, hbyte, Nat.reduceLT]

end Ti3.Tr.PseudoTr
