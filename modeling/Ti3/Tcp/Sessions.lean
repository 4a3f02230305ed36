import Ti3.Library.Embedding
import Ti3.Tcp.Serving

namespace Ti3.Tcp.Sessions

open Library.CString Library.CMemory Library.Interaction Library.Rules Library.Concurrency
open Library.Embedding Serving
open TcpClient (maxMsgLen newline closed)
open TcpServer (SockAddrIn6)

/-- What a client sees: the results of `recv` that were not empty, whether the connection has
ended, and its standard output. -/
structure Heard where
  chunks : List Bytes
  ended : Bool
  printed : Bytes

/-- A piece of the message is printed with what the buffer held behind it. -/
def showChunk (s : Buffer maxMsgLen × Bytes) (c : Bytes) : Option (Buffer maxMsgLen × Bytes) :=
  ((s.1.fill c).string (.inside 0)).map (fun text => (s.1.fill c, s.2 ++ text ++ [newline]))

/-- What the buffer holds and what has been printed after some pieces, unless the end of a
string was looked for behind the buffer. -/
def shown (buffer : Buffer maxMsgLen) (chunks : List Bytes) : Option (Buffer maxMsgLen × Bytes) :=
  chunks.foldlM showChunk (buffer, [])

/-- The library for a client. -/
def heardCalls : Environment TcpClient.Call TcpClient.Answer Heard := fun v c a v' =>
  match c, a with
  | .socket, _ | .inetPton _, _ | .connect _ _, _ => v' = v
  | .recv _ size, a => (a = none ∧ v' = v) ∨ (a = some [] ∧ v' = { v with ended := true }) ∨
      ∃ c, a = some c ∧ c ≠ [] ∧ c.length ≤ size ∧ v' = { v with chunks := v.chunks ++ [c] }
  | .puts text, _ => v' = { v with printed := v.printed ++ text ++ [newline] }

section client

variable {buffer b : Buffer maxMsgLen} {sockFd : Int} {v : Heard} {o : Outcome TcpClient.Exit Unit}

end client

variable {ι : Type}

/-- The clients that have connected and wait to be accepted, what the server sees, and what
the clients have received and printed. -/
structure Net (ι : Type) where
  backlog : List ι
  server : View ι
  clients : ι → Heard

/-- The calls of both programs. -/
abbrev NetCall := TcpServer.Call ⊕ TcpClient.Call

abbrev NetAnswer : NetCall → Type
  | .inl c => TcpServer.Answer c
  | .inr c => TcpClient.Answer c

abbrev NetExit := TcpServer.Exit ⊕ TcpClient.Exit

variable [DecidableEq ι]

def Net.hear (w : Net ι) (i : ι) (v : Heard) : Net ι :=
  { w with clients := Function.update w.clients i v }

/-- The server accepts the client that has waited longest. -/
def serverStep (peer : ι → SockAddrIn6) (ntop : Bytes → Bytes) (w : Net ι)
    (c : TcpServer.Call) (a : TcpServer.Answer c) (w' : Net ι) : Prop :=
  ∃ v, serverCalls peer ntop w.server c a v ∧
    ((v.accepted = w.server.accepted ∧ w' = { w with server := v }) ∨
      ∃ i rest, w.backlog = i :: rest ∧ v.accepted = w.server.accepted ++ [i] ∧
        w' = { w with server := v, backlog := rest })

/-- Whether a connection has been established. -/
def Connects : (c : TcpClient.Call) → TcpClient.Answer c → Prop
  | .connect _ _, a => a = 0
  | .socket, _ | .inetPton _, _ | .recv _ _, _ | .puts _, _ => False

/-- A client receives the next bytes in pieces of any length. It is told the end of the
connection when it has them all and the server has closed it, or has been disturbed. -/
def clientStep (i : ι) (w : Net ι) (c : TcpClient.Call) (a : TcpClient.Answer c) (w' : Net ι) :
    Prop :=
  ∃ v, heardCalls (w.clients i) c a v ∧
    (v.chunks = (w.clients i).chunks ∨ v.chunks.flatten <+: w.server.sent i) ∧
    (v.ended = true → (w.clients i).ended = true ∨ w.server.disturbed = true ∨
      (i ∈ w.server.closed ∧ v.chunks.flatten = w.server.sent i)) ∧
    ((¬ Connects c a ∧ w' = w.hear i v) ∨ (Connects c a ∧ i ∉ w.backlog ∧
      i ∉ w.server.accepted ∧ w' = { w.hear i v with backlog := w.backlog ++ [i] }))

/-- The clients and, without an index, the server. -/
def environment (peer : ι → SockAddrIn6) (ntop : Bytes → Bytes) :
    Option ι → Environment NetCall NetAnswer (Net ι)
  | none => fun w c a w' => match c, a with
    | .inl c, a => serverStep peer ntop w c a w'
    | .inr _, _ => False
  | some i => fun w c a w' => match c, a with
    | .inl _, _ => False
    | .inr c, a => clientStep i w c a w'

/-- What the server sees of the calls of both programs. -/
def serverOwn (peer : ι → SockAddrIn6) (ntop : Bytes → Bytes) :
    Environment NetCall NetAnswer (View ι) := fun v c a v' => match c, a with
  | .inl c, a => serverCalls peer ntop v c a v'
  | .inr _, _ => False

/-- What a client sees of them. -/
def clientOwn : Environment NetCall NetAnswer Heard := fun v c a v' => match c, a with
  | .inl _, _ => False
  | .inr c, a => heardCalls v c a v'

section net

variable {peer : ι → SockAddrIn6} {ntop : Bytes → Bytes} {w w' : Net ι}

theorem owns_server : Owns (environment peer ntop) none Net.server (serverOwn peer ntop) where
  mine w c a w' h := by
    cases c with
    | inl c =>
      obtain ⟨v, hv, ⟨-, rfl⟩ | ⟨i, rest, -, -, rfl⟩⟩ := h
      · exact hv
      · exact hv
    | inr c => exact h
  theirs j w c a w' hj h := by
    cases j with
    | none => exact absurd rfl hj
    | some i =>
      cases c with
      | inl c => exact h.elim
      | inr c =>
        obtain ⟨v, -, -, -, ⟨-, rfl⟩ | ⟨-, -, -, rfl⟩⟩ := h
        · rfl
        · rfl

theorem owns_client (i : ι) :
    Owns (environment peer ntop) (some i) (fun w => w.clients i) clientOwn where
  mine w c a w' h := by
    cases c with
    | inl c => exact h
    | inr c =>
      have hsame (v : Heard) : (w.hear i v).clients i = v := Function.update_self ..
      obtain ⟨v, hv, -, -, ⟨-, rfl⟩ | ⟨-, -, -, rfl⟩⟩ := h
      · change heardCalls (w.clients i) c a ((w.hear i v).clients i)
        rwa [hsame]
      · change heardCalls (w.clients i) c a ((w.hear i v).clients i)
        rwa [hsame]
  theirs j w c a w' hj h := by
    cases j with
    | none =>
      cases c with
      | inl c =>
        obtain ⟨v, -, ⟨-, rfl⟩ | ⟨i, rest, -, -, rfl⟩⟩ := h
        · rfl
        · rfl
      | inr c => exact h.elim
    | some j =>
      have hne : i ≠ j := fun he => hj (he ▸ rfl)
      cases c with
      | inl c => exact h.elim
      | inr c =>
        obtain ⟨v, -, -, -, ⟨-, rfl⟩ | ⟨-, -, -, rfl⟩⟩ := h
        · exact Function.update_of_ne hne ..
        · exact Function.update_of_ne hne ..

end net

section consistent

variable {peer : ι → SockAddrIn6} {ntop : Bytes → Bytes} {server : View ι} {clients : ι → Heard}
variable {i : ι} {fd : Int}

end consistent

/-- The server and the clients start with their arguments, with anything in their buffers. -/
def start (stale : SockAddrIn6) (buffers : ι → Buffer maxMsgLen) (argv : Option ι → List Bytes) :
    Configuration NetCall NetAnswer NetExit Unit (Net ι) (Option ι) where
  programs
    | none => embed Sum.inl (fun _ a => a) Sum.inl (TcpServer.main stale (argv none))
    | some i => embed Sum.inr (fun _ a => a) Sum.inr (TcpClient.main (buffers i) (argv (some i)))
  world := ⟨[], View.start, fun _ => ⟨[], false, []⟩⟩

section sessions

variable {peer : ι → SockAddrIn6} {ntop : Bytes → Bytes} {stale : SockAddrIn6}
variable {buffers : ι → Buffer maxMsgLen} {argv : Option ι → List Bytes}
variable {C : Configuration NetCall NetAnswer NetExit Unit (Net ι) (Option ι)}

end sessions

/-- A server and one client whose calls succeed. -/
def cooperate (peer : SockAddrIn6) : Option Unit → Net Unit → (c : NetCall) →
    Option (NetAnswer c × Net Unit)
  | none, w, .inl .sigint => some (false, w)
  | none, w, .inl (.fopen _) => some (some 4, w)
  | none, w, .inl (.inetPton _) => some (some (List.replicate 16 0), w)
  | none, w, .inl (.accept _ _) => match w.backlog with
    | [] => none
    | i :: rest => if i ∈ w.server.accepted ∨ w.server.fds 5 ≠ none then none
      else some (some (5, peer), { w with server := w.server.accept 5 i, backlog := rest })
  | none, w, .inl (.inetNtop address) => some (address, w)
  | none, w, .inl .time => some (7, { w with server := w.server.tick 7 })
  | none, w, .inl (.fprintf _ text) =>
    some (text.length, { w with server := w.server.print text })
  | none, w, .inl (.send fd bytes) => (w.server.fds fd).map (fun i =>
      ((bytes.length : Int), { w with server := w.server.send i bytes bytes.length }))
  | none, w, .inl (.close fd) => some (0, { w with server := w.server.close fd })
  | none, w, .inl .sigaction | none, w, .inl .socket | none, w, .inl (.bind _ _)
  | none, w, .inl (.listen _ _) | none, w, .inl (.fflush _) | none, w, .inl (.fclose _) =>
    some (0, w)
  | some i, w, .inr .socket => some (3, w.hear i (w.clients i))
  | some i, w, .inr (.inetPton _) => some (some (List.replicate 16 0), w.hear i (w.clients i))
  | some i, w, .inr (.connect _ _) =>
    if i ∈ w.backlog ∨ i ∈ w.server.accepted then none
    else some (0, { w.hear i (w.clients i) with backlog := w.backlog ++ [i] })
  | some i, w, .inr (.recv _ size) =>
    let rest := (w.server.sent i).drop (w.clients i).chunks.flatten.length
    if rest.take size = [] then
      if i ∈ w.server.closed ∧ (w.clients i).chunks.flatten = w.server.sent i then
        some (some [], w.hear i { w.clients i with ended := true })
      else none
    else if ((w.clients i).chunks ++ [rest.take size]).flatten <+: w.server.sent i then
      some (some (rest.take size),
        w.hear i { w.clients i with chunks := (w.clients i).chunks ++ [rest.take size] })
    else none
  | some i, w, .inr (.puts text) => some (0, w.hear i { w.clients i with
      printed := (w.clients i).printed ++ text ++ [newline] })
  | none, _, .inr _ | some _, _, .inl _ => none

theorem cooperate_allowed {peer : SockAddrIn6} (p : Option Unit) (w : Net Unit) (c : NetCall)
    (a : NetAnswer c) (w' : Net Unit) (h : cooperate peer p w c = some (a, w')) :
    environment (fun _ => peer) id p w c a w' := by
  cases p with
  | none =>
    cases c with
    | inr c => cases h
    | inl c =>
      cases c with
      | accept sockFd size =>
        simp only [cooperate] at h
        split at h
        · cases h
        · next i rest hb =>
          split at h
          · cases h
          · next hfree =>
            cases h
            obtain ⟨hi, hfd⟩ := not_or.mp hfree
            exact ⟨_, .inr ⟨5, i, rfl, not_not.mp hfd, hi, rfl⟩, .inr ⟨i, rest, hb, rfl, rfl⟩⟩
      | send fd bytes =>
        obtain ⟨i, hi, he⟩ := Option.map_eq_some_iff.mp h
        cases he
        exact ⟨_, .inr ⟨i, _, hi, Nat.le_refl _, rfl, rfl⟩, .inl ⟨rfl, rfl⟩⟩
      | close fd =>
        cases h
        exact ⟨_, .inr ⟨rfl, rfl⟩, .inl ⟨rfl, rfl⟩⟩
      | sigint =>
        cases h
        exact ⟨_, .inl ⟨rfl, rfl⟩, .inl ⟨rfl, rfl⟩⟩
      | inetNtop =>
        cases h
        exact ⟨_, ⟨rfl, rfl⟩, .inl ⟨rfl, rfl⟩⟩
      | sigaction | fopen | socket | inetPton | bind | listen | time | fprintf | fflush | fclose =>
        cases h
        exact ⟨_, rfl, .inl ⟨rfl, rfl⟩⟩
  | some i =>
    cases c with
    | inl c => cases h
    | inr c =>
      cases c with
      | connect sockFd sockAddr =>
        simp only [cooperate] at h
        split at h
        · cases h
        · next hnew =>
          cases h
          obtain ⟨hb, ha⟩ := not_or.mp hnew
          exact ⟨_, rfl, .inl rfl, .inl, .inr ⟨rfl, hb, ha, rfl⟩⟩
      | recv sockFd size =>
        simp only [cooperate] at h
        split at h
        · split at h
          · next hclosed =>
            cases h
            exact ⟨_, .inr (.inl ⟨rfl, rfl⟩), .inl rfl, fun _ => .inr (.inr hclosed),
              .inl ⟨id, rfl⟩⟩
          · cases h
        · next hne =>
          split at h
          · next hprefix =>
            cases h
            exact ⟨_, .inr (.inr ⟨_, rfl, hne, List.length_take_le .., rfl⟩), .inr hprefix, .inl,
              .inl ⟨id, rfl⟩⟩
          · cases h
      | socket | inetPton | puts =>
        cases h
        exact ⟨_, rfl, .inl rfl, .inl, .inl ⟨id, rfl⟩⟩

end Ti3.Tcp.Sessions
