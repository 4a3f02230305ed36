import Mathlib.Algebra.Order.Ring.Int
import Ti3.Library.CMemory
import Ti3.Library.Determinism
import Ti3.Library.Numerals

namespace Ti3.Tcp.TcpClient

open Library.CString Library.CMemory Library.Interaction Library.Rules Library.Determinism
open Library.Numerals

def argError : Nat := 1
def sockError : Nat := 2
def recvError : Nat := 3

def maxMsgLen : Nat := 72

def newline : UInt8 := 10

/-- The address of the server. The port is in network byte order. -/
structure SockAddr where
  port : Bytes
  address : Bytes
  deriving DecidableEq

def htons (port : UInt16) : Bytes := [(port >>> 8).toUInt8, port.toUInt8]

/-- The calls of the client. -/
inductive Call where
  | socket
  | inetPton (text : Bytes)
  | connect (sockFd : Int) (sockAddr : SockAddr)
  | recv (sockFd : Int) (size : Nat)
  | puts (text : Bytes)

/-- `recv` answers with the bytes that it stores: none of them when the connection
is closed. -/
abbrev Answer : Call → Type
  | .socket | .connect _ _ | .puts _ => Int
  | .inetPton _ | .recv _ _ => Option Bytes

/-- How a process ends: with a status and a message, or by reading behind its
buffer. -/
inductive Exit where
  | status (code : Nat) (message : Bytes)
  | fault
  deriving DecidableEq

abbrev Process := Program Call Answer Exit

def library (c : Call) : Process (Answer c) := ask c

def socket : Process Int := library .socket
def inetPton (text : Bytes) : Process (Option Bytes) := library (.inetPton text)
def connect (sockFd : Int) (sockAddr : SockAddr) : Process Int :=
  library (.connect sockFd sockAddr)
def recv (sockFd : Int) (size : Nat) : Process (Option Bytes) := library (.recv sockFd size)
def puts (text : Bytes) : Process Int := library (.puts text)

def err {α : Type} (code : Nat) (message : Bytes) : Process α := .halt (.status code message)

/-- What has been received is printed as a string, over what the buffer held. The
loop ends with the last answer of `recv`. -/
def receiveStep (sockFd : Int) (buffer : Buffer maxMsgLen) :
    Process (Buffer maxMsgLen ⊕ Int) := do
  match ← recv sockFd maxMsgLen with
  | none => return .inr (-1)
  | some bytes =>
    let buffer := buffer.fill bytes
    if 0 < bytes.length then
      match buffer.string (.inside 0) with
      | none => .halt .fault
      | some text =>
        let _ ← puts text
        return .inl buffer
    else return .inr 0

/-- Look what the server sends. The buffer is not initialised. -/
def receive (sockFd : Int) (buffer : Buffer maxMsgLen) : Process Unit :=
  .loop (receiveStep sockFd) buffer fun recvdBytesCnt =>
    if recvdBytesCnt = 0 then do
      let _ ← puts (ascii "Server closed connection.")
    else err recvError (ascii "Cannot receive from server.")

def main (buffer : Buffer maxMsgLen) (argv : List Bytes) : Process Unit :=
  match argv with
  | [_, addressText, portText] => do
    let sockFd ← socket
    if sockFd = -1 then err sockError (ascii "Cannot create socket")
    else match ← inetPton addressText with
    | none => err argError (ascii "Invalid IPv6 address given")
    | some address =>
      let sockAddr := { port := htons (UInt16.ofInt (atoi portText)), address }
      if (← connect sockFd sockAddr) = -1 then err sockError (ascii "Cannot connect socket")
      else receive sockFd buffer
  | _ => err argError (ascii "Arguments: <IPv6 address> <port number>")

/-- The results of `recv` to come, behind which the connection is closed, and the
standard output. -/
structure World where
  chunks : List Bytes
  out : Bytes

/-- A connection to a server that answers. -/
def perform (w : World) : (c : Call) → Answer c × World
  | .socket => (3, w)
  | .inetPton _ => (some (List.replicate 16 0), w)
  | .connect _ _ => (0, w)
  | .recv _ _ => match w.chunks with
    | [] => (some [], w)
    | c :: cs => (some c, { w with chunks := cs })
  | .puts text => (0, { w with out := w.out ++ text ++ [newline] })

/-- The string that bytes start with. -/
def text (c : Bytes) : Bytes := c.takeWhile (· ≠ 0)

/-- The line about the end of the connection. -/
def closed : Bytes := ascii "Server closed connection." ++ [newline]

/-- Everything up to the first zero is printed, and maybe more. -/
def printedLength (chunks : List Bytes) : Nat := (chunks.map (fun c => (text c).length + 1)).sum

variable {buffer : Buffer maxMsgLen} {sockFd : Int} {w : World} {t c : Bytes} {chunks : List Bytes}

theorem text_length_le {s : Bytes} (hc : c.length ≤ maxMsgLen)
    (hs : (buffer.fill c).string (.inside 0) = some s) : (text c).length ≤ s.length := by
  by_cases h₀ : 0 ∈ c
  · rw [string_fill_zero hc h₀] at hs
    exact Nat.le_of_eq (congrArg List.length (Option.some.inj hs))
  · rw [string_fill_open hc h₀] at hs
    obtain ⟨v, -, rfl⟩ := Option.map_eq_some_iff.mp hs
    rw [text, takeWhile_whole h₀, List.length_append]
    exact Nat.le_add_right _ _

theorem recv_chunk {cs : List Bytes} (h : w.chunks = c :: cs) :
    perform w (.recv sockFd maxMsgLen) = (some c, { w with chunks := cs }) := by
  simp only [perform, h]

theorem recv_closed (h : w.chunks = []) :
    perform w (.recv sockFd maxMsgLen) = (some [], w) := by
  simp only [perform, h]

/-- The connection is closed. -/
theorem receive_closed (h : w.chunks = []) : Runs (handled perform) (receive sockFd buffer) w
    (.returned ()) { w with out := w.out ++ closed } := by
  have hstep : Runs (handled perform) (receiveStep sockFd buffer) w (.returned (.inr 0)) w :=
    runs_call (recv_closed h) runs_done
  have hputs : perform w (.puts (ascii "Server closed connection.")) =
      (0, { w with out := w.out ++ closed }) := by
    simp only [perform, closed, List.append_assoc]
  exact loop_stop hstep (runs_call hputs runs_done)

/-- A round for a chunk that is not empty. -/
theorem receiveStep_runs (sockFd : Int) (buffer : Buffer maxMsgLen) {cs : List Bytes}
    (h : w.chunks = c :: cs) (hne : c ≠ []) :
    Runs (handled perform) (receiveStep sockFd buffer) w
      (((buffer.fill c).string (.inside 0)).elim (.halted .fault)
        (fun _ => .returned (.inl (buffer.fill c))))
      (((buffer.fill c).string (.inside 0)).elim ⟨cs, w.out⟩
        (fun s => ⟨cs, w.out ++ s ++ [newline]⟩)) := by
  simp only [receiveStep, recv, library, ask_bind]
  apply runs_call (recv_chunk h)
  dsimp only
  rw [if_pos (List.length_pos_iff.mpr hne)]
  cases (buffer.fill c).string (.inside 0) with
  | none => exact runs_halt
  | some s => exact runs_call rfl runs_done

/-- However the client ends, it prints no less than the strings of the chunks, each
with a newline. -/
theorem receive_ends (sockFd : Int) (buffer : Buffer maxMsgLen)
    (hc : ∀ c ∈ chunks, c ≠ [] ∧ c.length ≤ maxMsgLen) (out : Bytes) :
    ∃ o w', o ≠ .cut ∧ Runs (handled perform) (receive sockFd buffer) ⟨chunks, out⟩ o w' ∧
      (o = .returned () → out.length + printedLength chunks + closed.length ≤ w'.out.length) := by
  induction chunks generalizing buffer out with
  | nil =>
    refine ⟨.returned (), _, nofun, receive_closed rfl, fun _ => ?_⟩
    rw [List.length_append]
    exact Nat.le_refl _
  | cons c cs ih =>
    obtain ⟨⟨hne, hlen⟩, hcs⟩ := List.forall_mem_cons.mp hc
    have hstep := receiveStep_runs (w := ⟨c :: cs, out⟩) sockFd buffer rfl hne
    cases hs : (buffer.fill c).string (.inside 0) with
    | none =>
      rw [hs] at hstep
      exact ⟨.halted .fault, _, nofun, loop_halted hstep, nofun⟩
    | some s =>
      rw [hs] at hstep
      obtain ⟨o, w', ho, hr, hlen'⟩ := ih (buffer.fill c) hcs (out ++ s ++ [newline])
      refine ⟨o, w', ho, loop_next hstep hr, fun hret => ?_⟩
      have hle := text_length_le hlen hs
      have hrest := hlen' hret
      simp only [List.length_append, List.length_singleton] at hrest
      simp only [printedLength, List.map_cons, List.sum_cons] at hrest ⊢
      omega

theorem printedLength_plain (h : ∀ c ∈ chunks, 0 ∉ c) :
    printedLength chunks = chunks.flatten.length + chunks.length := by
  induction chunks with
  | nil => rfl
  | cons c cs ih =>
    obtain ⟨hc, hcs⟩ := List.forall_mem_cons.mp h
    have hrest := ih hcs
    have htext : text c = c := takeWhile_whole hc
    simp only [printedLength, List.map_cons, List.sum_cons, htext, List.flatten_cons,
      List.length_append, List.length_cons] at hrest ⊢
    omega

/-- Only the last chunk has a zero in it, and it ends there. -/
theorem printedLength_message (ht : 0 ∉ t) (hne : ∀ c ∈ chunks, c ≠ [])
    (h : chunks.flatten = t ++ [0]) : printedLength chunks = t.length + chunks.length := by
  obtain rfl | ⟨init, last, rfl⟩ := List.eq_nil_or_concat' chunks
  · simp at h
  · have hlast : last ≠ [] := hne last (by simp)
    obtain rfl | ⟨u, b, rfl⟩ := List.eq_nil_or_concat' last
    · exact absurd rfl hlast
    · rw [List.flatten_concat, ← List.append_assoc] at h
      obtain ⟨rfl, hb⟩ := List.append_inj' h rfl
      cases hb
      obtain ⟨hinit, hu⟩ := not_or.mp (fun h => ht (List.mem_append.mpr h))
      have hplain : printedLength init = init.flatten.length + init.length := printedLength_plain
        (fun c hc h₀ => hinit (List.mem_flatten.mpr ⟨c, hc, h₀⟩))
      have htext : text (u ++ [0]) = u := takeWhile_string hu
      simp only [printedLength, List.map_append, List.map_cons, List.map_nil, List.sum_append,
        List.sum_cons, List.sum_nil, htext, List.length_append, List.length_singleton] at hplain ⊢
      omega

theorem main_runs {prog addressText portText : Bytes} {o : Outcome Exit Unit} {w' : World}
    (h : Runs (handled perform) (receive 3 buffer) w o w') :
    Runs (handled perform) (main buffer [prog, addressText, portText]) w o w' :=
  runs_call rfl (runs_call rfl (runs_call rfl h))

/-- A message that comes in several pieces is printed with too many newlines. -/
theorem whole_of_prints {prog addressText portText : Bytes} (ht : 0 ∉ t)
    (hlen : t.length + 1 ≤ maxMsgLen) (hne : ∀ c ∈ chunks, c ≠ [])
    (h : chunks.flatten = t ++ [0])
    (hy : Yields (handled perform) (main buffer [prog, addressText, portText]) ⟨chunks, []⟩
      (fun _ w => w.out = t ++ [newline] ++ closed)) : chunks = [t ++ [0]] := by
  have hc : ∀ c ∈ chunks, c ≠ [] ∧ c.length ≤ maxMsgLen := by
    intro c hc
    have hle := (List.sublist_flatten_of_mem hc).length_le
    rw [h, List.length_append, List.length_singleton] at hle
    exact ⟨hne c hc, Nat.le_trans hle hlen⟩
  have hpos : 0 < chunks.length := by
    apply List.length_pos_iff.mpr
    rintro rfl
    simp at h
  obtain ⟨o, w', ho, hr, hout⟩ := receive_ends 3 buffer hc []
  obtain h' | ⟨_, rfl, hw'⟩ := hy.2 _ _ (main_runs hr)
  · exact absurd h' ho
  have hlong := hout rfl
  rw [hw', printedLength_message ht hne h, List.length_append, List.length_append] at hlong
  simp only [List.length_nil, List.length_singleton] at hlong
  obtain ⟨c, rfl⟩ := List.length_eq_one_iff.mp (show chunks.length = 1 by omega)
  rw [← h, List.flatten_singleton]

/-- The message is printed as one line exactly when it comes in one piece. -/
theorem main_prints_iff (buffer : Buffer maxMsgLen) (prog addressText portText : Bytes)
    (ht : 0 ∉ t) (hlen : t.length + 1 ≤ maxMsgLen) (hne : ∀ c ∈ chunks, c ≠ [])
    (h : chunks.flatten = t ++ [0]) :
    Yields (handled perform) (main buffer [prog, addressText, portText]) ⟨chunks, []⟩
        (fun _ w => w.out = t ++ [newline] ++ closed) ↔ chunks = [t ++ [0]] := by
  constructor
  · exact whole_of_prints ht hlen hne h
  · rintro rfl
    have hs : (buffer.fill (t ++ [0])).string (.inside 0) = some t := by
      rw [string_fill buffer hlen, takeWhile_whole ht]
    have hstep := receiveStep_runs (w := ⟨[t ++ [0]], []⟩) 3 buffer rfl (by simp)
    rw [hs] at hstep
    have hr : Runs (handled perform) (receive 3 buffer) ⟨[t ++ [0]], []⟩ (.returned ())
        ⟨[], [] ++ t ++ [newline] ++ closed⟩ := loop_next hstep (receive_closed rfl)
    exact yields_of_runs (main_runs hr) rfl

/-- A buffer of zeros, into which the message `Buggar off.` comes in one piece. -/
theorem main_prints_iff_whole :
    Yields (handled perform) (main (Buffer.zeros maxMsgLen) [ascii "c", ascii "::1", ascii "7"])
        ⟨[ascii "Buggar off." ++ [0]], []⟩
        (fun _ w => w.out = ascii "Buggar off." ++ [newline] ++ closed) ↔
      [ascii "Buggar off." ++ [0]] = [ascii "Buggar off." ++ [0]] :=
  main_prints_iff _ _ _ _ (by decide) (by decide) (by decide) rfl

/-- In two pieces it is printed as two lines. -/
theorem two_pieces : ¬
    Yields (handled perform) (main (Buffer.zeros maxMsgLen) [ascii "c", ascii "::1", ascii "7"])
      ⟨[ascii "Buggar ", ascii "off." ++ [0]], []⟩
      (fun _ w => w.out = ascii "Buggar off." ++ [newline] ++ closed) := by
  intro hy
  have hwhole := whole_of_prints (by decide) (by decide) (by decide) (by decide) hy
  exact absurd (congrArg List.length hwhole) (by decide)

end Ti3.Tcp.TcpClient
