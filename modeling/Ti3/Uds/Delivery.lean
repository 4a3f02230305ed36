import Ti3.Library.Concurrency
import Ti3.Uds.Parties

namespace Ti3.Uds.Delivery

open Library.CString Library.CMemory Library.Interaction Library.Rules Library.Concurrency
open Datagrams Parties

/-- The standard inputs of the clients with what is left of them, the datagrams
on their way, those that were delivered in their order, the standard output of
the server, and whether its last `recv` failed. -/
structure World (ι : Type) where
  input : ι → Bytes
  broken : ι → Bool
  queue : ι → List Bytes
  bound : Option (Buffer 108)
  delivered : List (ι × Bytes)
  output : Bytes
  failed : Bool

variable {ι : Type}

def printed (w : World ι) : Printed ι := ⟨w.delivered, w.output, w.failed⟩

/-- The processes of the clients and of the server. -/
abbrev System (ι : Type) := Configuration Call Answer Exit Unit (World ι) (Option ι)

/-- The server waits for a datagram. -/
def Waiting (C : System ι) : Prop :=
  ∃ sockFd size, calling (C.programs none) = some (.recv sockFd size)

variable [DecidableEq ι]

def World.setInput (w : World ι) (i : ι) (s : Bytes) : World ι :=
  { w with input := Function.update w.input i s }

def World.setQueue (w : World ι) (i : ι) (q : List Bytes) : World ι :=
  { w with queue := Function.update w.queue i q }

/-- A client may find its standard input broken, and may fail to send. -/
def clientCalls (i : ι) (w : World ι) : (c : Call) → Answer c → World ι → Prop
  | .socket, _, w' => w' = w
  | .fgets size, a, w' =>
      (a = none ∧ w.input i = [] ∧ w' = w) ∨
      (a = none ∧ w' = { w with broken := Function.update w.broken i true }) ∨
      (lineWithin (size - 1) (w.input i) ≠ [] ∧ a = some (lineWithin (size - 1) (w.input i)) ∧
        w' = w.setInput i ((w.input i).drop (lineWithin (size - 1) (w.input i)).length))
  | .ferror, a, w' => a = w.broken i ∧ w' = w
  | .sendto _ bytes thineAddr, a, w' => (a = -1 ∧ w' = w) ∨
      (w.bound = some thineAddr ∧ a = bytes.length ∧ w' = w.setQueue i (w.queue i ++ [bytes]))
  | .bind _ _, _, _ | .recv _ _, _, _ | .fputs _, _, _ => False

/-- The server receives the first datagram of any client. -/
def serverCalls (w : World ι) : (c : Call) → Answer c → World ι → Prop
  | .socket, _, w' => w' = w
  | .bind _ mineAddr, a, w' => (a = -1 ∧ w' = w) ∨
      (a = 0 ∧ w' = { w with bound := some mineAddr })
  | .recv _ size, a, w' => (a = none ∧ w' = { w with failed := true }) ∨
      ∃ i d rest, w.queue i = d :: rest ∧ a = some (d.take size) ∧
        w' = { w.setQueue i rest with delivered := w.delivered ++ [(i, d)] }
  | .fputs text, _, w' => w' = { w with output := w.output ++ text }
  | .fgets _, _, _ | .ferror, _, _ | .sendto _ _ _, _, _ => False

/-- The clients and, without an index, the server. -/
def environment : Option ι → Environment Call Answer (World ι)
  | some i => clientCalls i
  | none => serverCalls

/-- The datagrams of one client among those that were delivered. -/
def sentBy (i : ι) (delivered : List (ι × Bytes)) : List Bytes :=
  (delivered.filter (fun x => x.1 = i)).map Prod.snd

def own (i : ι) (w : World ι) : Own :=
  ⟨w.input i, w.broken i, sentBy i w.delivered ++ w.queue i⟩

theorem own_setInput_other {i j : ι} (h : j ≠ i) (w : World ι) (s : Bytes) :
    own i (w.setInput j s) = own i w := by
  simp [own, World.setInput, h.symm]

theorem own_setQueue_other {i j : ι} (h : j ≠ i) (w : World ι) (q : List Bytes) :
    own i (w.setQueue j q) = own i w := by
  simp [own, World.setQueue, h.symm]

/-- A datagram of a client is either on its way or delivered. -/
theorem own_deliver {i j : ι} {w : World ι} {d : Bytes} {rest : List Bytes}
    (hq : w.queue j = d :: rest) :
    own i { w.setQueue j rest with delivered := w.delivered ++ [(j, d)] } = own i w := by
  by_cases h : j = i
  · subst h
    simp [own, World.setQueue, sentBy, hq]
  · simp [own, World.setQueue, sentBy, h, Ne.symm h]

theorem owns_client (i : ι) : Owns environment (some i) (own i) ownCalls where
  mine w c a w' h := by
    cases c with
    | socket => exact congrArg (own i) h
    | fgets size =>
      obtain ⟨rfl, hi, rfl⟩ | ⟨rfl, rfl⟩ | ⟨hl, rfl, rfl⟩ := h
      · exact .inl ⟨rfl, hi, rfl⟩
      · exact .inr (.inl ⟨rfl, by simp [own]⟩)
      · exact .inr (.inr ⟨hl, rfl, by simp [own, World.setInput]⟩)
    | ferror => exact ⟨h.1, congrArg (own i) h.2⟩
    | sendto sockFd bytes addr =>
      obtain ⟨rfl, rfl⟩ | ⟨_, rfl, rfl⟩ := h
      · exact .inl ⟨rfl, rfl⟩
      · exact .inr ⟨rfl, by simp [own, World.setQueue]⟩
    | bind | recv | fputs => cases h
  theirs j w c a w' hj h := by
    cases j with
    | some j =>
      have hj : j ≠ i := fun he => hj (he ▸ rfl)
      cases c with
      | socket => exact congrArg (own i) h
      | fgets size =>
        obtain ⟨_, _, rfl⟩ | ⟨_, rfl⟩ | ⟨_, _, rfl⟩ := h
        · rfl
        · simp [own, hj.symm]
        · exact own_setInput_other hj _ _
      | ferror => exact congrArg (own i) h.2
      | sendto sockFd bytes addr =>
        obtain ⟨_, rfl⟩ | ⟨_, _, rfl⟩ := h
        · rfl
        · exact own_setQueue_other hj _ _
      | bind | recv | fputs => cases h
    | none =>
      cases c with
      | socket => exact congrArg (own i) h
      | bind sockFd mineAddr =>
        obtain ⟨_, rfl⟩ | ⟨_, rfl⟩ := h
        · rfl
        · rfl
      | recv sockFd size =>
        obtain ⟨_, rfl⟩ | ⟨k, d, rest, hq, _, rfl⟩ := h
        · rfl
        · exact own_deliver hq
      | fputs text => exact (congrArg (own i) h).trans rfl
      | fgets | ferror | sendto => cases h

theorem owns_server : Owns environment none (printed : World ι → Printed ι) printedCalls where
  mine w c a w' h := by
    cases c with
    | socket => exact congrArg printed h
    | bind sockFd mineAddr =>
      obtain ⟨_, rfl⟩ | ⟨_, rfl⟩ := h
      · rfl
      · rfl
    | recv sockFd size =>
      obtain ⟨rfl, rfl⟩ | ⟨i, d, rest, _, rfl, rfl⟩ := h
      · exact .inl ⟨rfl, rfl⟩
      · exact .inr ⟨i, d, rfl, rfl⟩
    | fputs text => exact congrArg printed h
    | fgets | ferror | sendto => cases h
  theirs j w c a w' hj h := by
    cases j with
    | none => exact absurd rfl hj
    | some j =>
      cases c with
      | socket => exact congrArg printed h
      | fgets size =>
        obtain ⟨_, _, rfl⟩ | ⟨_, rfl⟩ | ⟨_, _, rfl⟩ := h
        · rfl
        · rfl
        · rfl
      | ferror => exact congrArg printed h.2
      | sendto sockFd bytes addr =>
        obtain ⟨_, rfl⟩ | ⟨_, _, rfl⟩ := h
        · rfl
        · rfl
      | bind | recv | fputs => cases h

/-- Every process starts with its arguments and with anything in its buffer. -/
def start (inputs : ι → Bytes) (buffers : Option ι → Buffer bufsize)
    (argv : Option ι → List Bytes) : System ι where
  programs
    | some i => client (buffers (some i)) (argv (some i))
    | none => server (buffers none) (argv none)
  world := ⟨inputs, fun _ => false, fun _ => [], none, [], [], false⟩

theorem mem_sentBy {delivered : List (ι × Bytes)} {x : ι × Bytes} (hx : x ∈ delivered) :
    x.2 ∈ sentBy x.1 delivered :=
  List.mem_map.mpr ⟨x, List.mem_filter.mpr ⟨hx, decide_eq_true rfl⟩, rfl⟩

/-- In every interleaving the server prints the strings of the datagrams in the
order of their delivery, and those of one client make up its standard input. -/
theorem delivery {inputs : ι → Bytes} {buffers : Option ι → Buffer bufsize}
    {argv : Option ι → List Bytes} {C : System ι} (hfree : ∀ i, 0 ∉ inputs i)
    (hC : Reachable environment (start inputs buffers argv) C) :
    C.world.output <+: texts C.world.delivered ∧
    (Waiting C → C.world.output = texts C.world.delivered) ∧
    ∀ i, (sentBy i C.world.delivered).flatMap text <+: inputs i ∧
      (returned (C.programs (some i)) = some () → C.world.queue i = [] →
        (sentBy i C.world.delivered).flatMap text = inputs i) := by
  have hclient (i : ι) {o : Outcome Exit Unit}
      (hr : Runs ownCalls (C.programs (some i)) (own i C.world) o (own i C.world)) :=
    client_guarantees (hfree i) o _ (reachable_runs (owns_client i) hC hr)
  have hwhole : ∀ x ∈ C.world.delivered, Whole x.2 := by
    intro x hx
    obtain ⟨⟨_, h⟩, _⟩ := hclient x.1 (runs_cut _ _)
    exact h.whole _ (List.mem_append_left _ (mem_sentBy hx))
  have hserver {v : Printed ι}
      (hr : Runs printedCalls (C.programs none) (printed C.world) .cut v) :=
    server_guarantees _ v (reachable_runs owns_server hC hr)
  refine ⟨(hserver (runs_cut _ _) hwhole).1, fun ⟨_, _, hrecv⟩ => ?_, fun i => ?_⟩
  · exact (hserver (calling_runs hrecv (.inl ⟨rfl, rfl⟩)) hwhole).2.1 (.inr rfl)
  · obtain ⟨⟨pending, h⟩, _⟩ := hclient i (runs_cut _ _)
    refine ⟨?_, fun hdone hq => ?_⟩
    · have hsplit := h.split
      simp only [own, List.flatMap_append, List.append_assoc] at hsplit
      exact ⟨_, hsplit⟩
    · have hall : (own i C.world).sent.flatMap text = inputs i :=
        (hclient i (returned_runs hdone)).2 rfl
      simpa only [own, hq, List.append_nil] using hall

/-- Two clients whose calls succeed, and a server that serves the first one first. -/
def cooperate : Option Bool → World Bool → (c : Call) → Option (Answer c × World Bool)
  | some _, w, .socket | none, w, .socket => some (3, w)
  | some i, w, .fgets size =>
      if lineWithin (size - 1) (w.input i) = [] then
        if w.input i = [] then some (none, w) else none
      else some (some (lineWithin (size - 1) (w.input i)),
        w.setInput i ((w.input i).drop (lineWithin (size - 1) (w.input i)).length))
  | some i, w, .ferror => some (w.broken i, w)
  | some i, w, .sendto _ bytes thineAddr =>
      if w.bound = some thineAddr then
        some (bytes.length, w.setQueue i (w.queue i ++ [bytes]))
      else some (-1, w)
  | none, w, .bind _ mineAddr => some (0, { w with bound := some mineAddr })
  | none, w, .recv _ size => match w.queue true, w.queue false with
      | d :: rest, _ => some (some (d.take size),
          { w.setQueue true rest with delivered := w.delivered ++ [(true, d)] })
      | [], d :: rest => some (some (d.take size),
          { w.setQueue false rest with delivered := w.delivered ++ [(false, d)] })
      | [], [] => none
  | none, w, .fputs text => some (0, { w with output := w.output ++ text })
  | some _, _, .bind _ _ | some _, _, .recv _ _ | some _, _, .fputs _ | none, _, .fgets _
  | none, _, .ferror | none, _, .sendto _ _ _ => none

theorem cooperate_allowed (i : Option Bool) (w : World Bool) (c : Call) (a : Answer c)
    (w' : World Bool) (h : cooperate i w c = some (a, w')) : environment i w c a w' := by
  cases i with
  | some i =>
    cases c with
    | socket =>
      cases h
      rfl
    | fgets size =>
      simp only [cooperate] at h
      split at h
      · split at h
        · next hi =>
          cases h
          exact .inl ⟨rfl, hi, rfl⟩
        · cases h
      · next hl =>
        cases h
        exact .inr (.inr ⟨hl, rfl, rfl⟩)
    | ferror =>
      cases h
      exact ⟨rfl, rfl⟩
    | sendto sockFd bytes thineAddr =>
      simp only [cooperate] at h
      split at h
      · next hb =>
        cases h
        exact .inr ⟨hb, rfl, rfl⟩
      · cases h
        exact .inl ⟨rfl, rfl⟩
    | bind | recv | fputs => cases h
  | none =>
    cases c with
    | socket =>
      cases h
      rfl
    | bind sockFd mineAddr =>
      cases h
      exact .inr ⟨rfl, rfl⟩
    | recv sockFd size =>
      simp only [cooperate] at h
      split at h
      · next hq =>
        cases h
        exact .inr ⟨true, _, _, hq, rfl, rfl⟩
      · next hq =>
        cases h
        exact .inr ⟨false, _, _, hq, rfl, rfl⟩
      · cases h
    | fputs text =>
      cases h
      rfl
    | fgets | ferror | sendto => cases h

def lines : Bool → Bytes
  | true => ascii "ab\nc"
  | false => ascii "d\n"

def twoClients : System Bool :=
  (List.replicate 3 none ++ List.replicate 10 (some true) ++ List.replicate 7 (some false) ++
    List.replicate 9 none).foldl (fun C i => advance cooperate i C)
      (start lines (fun _ => Buffer.zeros bufsize) (fun _ => [ascii "uds", ascii "sock"]))

theorem delivery_twoClients : twoClients.world.output = texts twoClients.world.delivered ∧
    ∀ i, (sentBy i twoClients.world.delivered).flatMap text = lines i := by
  have hfree : ∀ i, 0 ∉ lines i := by decide
  have hwaits : calling (twoClients.programs none) = some (.recv 3 bufsize) := by decide +kernel
  have hreturned : ∀ i, returned (twoClients.programs (some i)) = some () := by decide +kernel
  have hempty : ∀ i, twoClients.world.queue i = [] := by decide +kernel
  obtain ⟨_, hwaiting, hclients⟩ := delivery hfree (C := twoClients)
    (schedule_reachable cooperate_allowed _ _)
  exact ⟨hwaiting ⟨_, _, hwaits⟩, fun i => (hclients i).2 (hreturned i) (hempty i)⟩

end Ti3.Uds.Delivery
