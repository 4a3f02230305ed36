import Ti3.Http.EndOfFile
import Ti3.Library.Trails

namespace Ti3.Http.ClientWalk

open Library.CString Library.CMemory Library.Interaction Library.Linked Library.Rules
open Library.History Library.Trails Server Response Descriptors Invariants Iterations CloseOnce
open EndOfFile

-- The texts are known by their equations; evaluating them on the way is slow.
attribute [local irreducible] message header

/-- The -1 of a failed `accept` cannot be read from. -/
def Refused (_ : History) (c : Call) (a : Answer c) : Prop :=
  match c, a with
  | .read fd _, bytes => fd = -1 → bytes = none
  | _, _ => True

/-- Among these events no client says anything but that it has come to its end. -/
def Idle (u : History) : Prop :=
  ∀ fd count (bytes : Option Bytes), ⟨.read fd count, bytes⟩ ∈ u → bytes = some []

/-- Among these events no node is asked for the next one after it has been freed. -/
def NeverStale (u : History) : Prop :=
  ∀ address (next : Option Nat), ⟨.staleNext address, next⟩ ∉ u

/-- The walk over the clients in one iteration: the nodes that the cursor points to,
and the events. -/
def Walk (sockFd : Int) (readfds : List Int) (s : State) (h : History) (cursors : List Nat)
    (o : Outcome Exit State) (u : History) : Prop :=
  ∃ cs, Trail (fun c => Runs (recorded (Allowed sockFd)) (walkStep readfds c))
    (s, s.clientFds.first) h cs o (u ++ h) ∧ cursors = cs.filterMap Prod.snd

def addresses (s : State) : List Nat := s.clientFds.nodes.map Node.address

/-- Each client that was in the list is visited exactly once. -/
def VisitsOnce (s : State) (cursors : List Nat) : Prop :=
  ∀ address ∈ addresses s, cursors.count address = 1

variable {sockFd fd : Int} {readfds : List Int} {s : State} {h h' u v : History}
variable {p q : List (Node Int)} {n : Node Int}

theorem idle_append : Idle (u ++ v) ↔ Idle u ∧ Idle v := by
  simp only [Idle, List.mem_append, or_imp, forall_and]

theorem neverStale_append : NeverStale (u ++ v) ↔ NeverStale u ∧ NeverStale v := by
  simp only [NeverStale, List.mem_append, not_or, forall_and]

theorem idle_nil : Idle [] := fun _ _ _ hm => absurd hm List.not_mem_nil

theorem neverStale_nil : NeverStale [] := fun _ _ => List.not_mem_nil

theorem not_idle_of_mem {count : Nat} {bytes : Option Bytes} (hm : ⟨.read fd count, bytes⟩ ∈ u)
    (hb : bytes ≠ some []) : ¬ Idle u := fun hi => hb (hi fd count bytes hm)

/-- What a turn of the walk at a node leads to: it moves on to the next node and has
changed nothing, or the client has said something, and if the turn comes to an end the
node has been asked for the next one after it has been freed. -/
def Turn (s : State) (readfds : List Int) (n : Node Int) (q : List (Node Int)) (h : History)
    (o : Outcome Exit ((State × Option Nat) ⊕ State)) (h' : History) : Prop :=
  ∃ u, h' = u ++ h ∧
    ((Idle u ∧ NeverStale u ∧ (∀ r, o = .returned r →
        r = .inl (s, q.head?.map Node.address) ∧
          (Throughout Refused h' → n.data ∈ readfds → n.data ≠ -1))) ∨
      (¬ Idle u ∧ ∀ r, o = .returned r → ¬ NeverStale u ∧ ∃ c, r = .inl c))

/-- The service of a client that has said something, and the way to the next node. -/
theorem serveRead_turn {bytes : Option Bytes} (hn : s.clientFds.nodes = p ++ n :: q)
    (hfirst : ∀ m ∈ p, m.data ≠ n.data) (hb : bytes ≠ some []) :
    Guarantees (recorded (Allowed sockFd)) (do
      let s ← serveRead s n.data bytes
      return .inl (s, ← slistNext s.clientFds n.address))
      (⟨.read n.data maxRequestLineLen, bytes⟩ :: h) (Turn s readfds n q h) := by
  have hread {h' : History} (hs : ⟨.read n.data maxRequestLineLen, bytes⟩ :: h <:+ h') :
      ∃ u, h' = u ++ h ∧ ¬ Idle u := by
    obtain ⟨u, rfl⟩ := hs
    refine ⟨u ++ [⟨.read n.data maxRequestLineLen, bytes⟩], by simp, ?_⟩
    exact not_idle_of_mem (List.mem_append_right u (List.mem_singleton_self _)) hb
  have hearly {h' : History} (o : Outcome Exit ((State × Option Nat) ⊕ State))
      (hs : ⟨.read n.data maxRequestLineLen, bytes⟩ :: h <:+ h') (ho : ∀ r, o ≠ .returned r) :
      Turn s readfds n q h o h' := by
    obtain ⟨u, rfl, hu⟩ := hread hs
    exact ⟨u, rfl, .inr ⟨hu, fun r hr => absurd hr (ho r)⟩⟩
  apply guarantees_bind
  intro o h₁ hr
  have hs := runs_suffix _ hr
  cases o with
  | cut => exact hearly _ hs nofun
  | halted e => exact hearly _ hs nofun
  | returned s' =>
    have hremoved := ((serveRead_removes bytes) _ _ hr).2 s' rfl
    have hnext : s'.clientFds.next n.address = none := by
      rw [hremoved.1]
      exact next_removed hn hfirst
    simp only [follow, slistNext, hnext, staleNext, library, ask_bind]
    refine guarantees_call.mpr ⟨hearly _ hs nofun, ?_⟩
    rintro next _ ⟨_, rfl⟩
    have hs' := hs.trans (List.suffix_cons ⟨.staleNext n.address, next⟩ h₁)
    refine guarantees_done.mpr ⟨hearly _ hs' nofun, ?_⟩
    obtain ⟨u, rfl, hu⟩ := hread hs
    refine ⟨⟨.staleNext n.address, next⟩ :: u, rfl, .inr ⟨?_, fun r hr => ⟨?_, ?_⟩⟩⟩
    · exact fun hi => hu (fun fd count b hm => hi fd count b (List.mem_cons_of_mem _ hm))
    · exact fun hns => hns n.address next List.mem_cons_self
    · cases hr
      exact ⟨_, rfl⟩

theorem walkStep_turn (hn : s.clientFds.nodes = p ++ n :: q)
    (hfirst : n.data ∈ readfds → ∀ m ∈ p, m.data ≠ n.data) :
    Guarantees (recorded (Allowed sockFd)) (walkStep readfds (s, some n.address)) h
      (Turn s readfds n q h) := by
  have hcut {u : History} (hi : Idle u) (hs : NeverStale u) : Turn s readfds n q h .cut (u ++ h) :=
    ⟨u, rfl, .inl ⟨hi, hs, fun _ ho => by cases ho⟩⟩
  have hmove {u : History} (hi : Idle u) (hs : NeverStale u)
      (hd : Throughout Refused (u ++ h) → n.data ∈ readfds → n.data ≠ -1) :
      Guarantees (recorded (Allowed sockFd)) (do
        return .inl (s, ← slistNext s.clientFds n.address)) (u ++ h) (Turn s readfds n q h) := by
    simp only [slistNext, next_node hn, Program.pure_eq, Program.done_bind]
    refine guarantees_done.mpr ⟨hcut hi hs, u, rfl, .inl ⟨hi, hs, ?_⟩⟩
    rintro r hr
    cases hr
    exact ⟨rfl, hd⟩
  simp only [walkStep, nodeAt_node hn, serveClient]
  by_cases hr : n.data ∈ readfds
  · simp only [if_pos hr, Server.read, library, ask_bind, Program.call_bind]
    refine guarantees_call.mpr ⟨hcut idle_nil neverStale_nil, ?_⟩
    rintro bytes _ ⟨_, rfl⟩
    cases bytes with
    | none => exact serveRead_turn hn (hfirst hr) (by rintro ⟨⟩)
    | some bytes =>
      cases bytes with
      | nil =>
        refine hmove (u := [⟨.read n.data maxRequestLineLen, some []⟩]) ?_ ?_ ?_
        · intro fd count bytes hm
          cases List.mem_singleton.mp hm
          rfl
        · intro address next hm
          cases List.mem_singleton.mp hm
        · intro ht _ he
          cases (throughout_cons.mp ht).1 he
      | cons b bytes => exact serveRead_turn hn (hfirst hr) (by rintro ⟨⟩)
  · rw [if_neg hr]
    exact hmove (u := []) idle_nil neverStale_nil (fun _ hm => absurd hm hr)

/-- A descriptor is in the list once, so its first node is the one that is visited. -/
theorem first_of_owned (ho : Owned s.clientFds.values h) (hn : s.clientFds.nodes = p ++ n :: q)
    (hp : ∀ m ∈ p, m.data ∈ readfds → m.data ≠ -1) (hr : n.data ∈ readfds) (m : Node Int)
    (hm : m ∈ p) : m.data ≠ n.data := by
  intro he
  have hv : s.clientFds.values = p.map Node.data ++ n.data :: q.map Node.data := by
    simp [LinkedList.values, hn]
  have hmem : n.data ∈ p.map Node.data := he ▸ List.mem_map_of_mem hm
  have hcount := (ho n.data (by simp [hv]) (he ▸ hp m hm (he ▸ hr))).2
  have hpos : 0 < (p.map Node.data).count n.data := List.count_pos_iff.mpr hmem
  rw [hv, List.count_append, List.count_cons_self] at hcount
  omega

/-- How far a walk over nodes at these addresses has come: it visits them in their
order until some client says something, and in that case the walk does not come to its
end without a look at a node that has been freed. -/
structure Walked (addresses cursors : List Nat) (o : Outcome Exit State) (u : History) :
    Prop where
  idle : Idle u → NeverStale u ∧ cursors <+: addresses ∧
    ∀ s', o = .returned s' → cursors = addresses
  busy : ¬ Idle u → ∀ s', o = .returned s' → ¬ NeverStale u

section

variable {as cursors : List Nat} {o : Outcome Exit State}

theorem walked_end : Walked [] [] o [] where
  idle _ := ⟨neverStale_nil, List.nil_prefix, fun _ _ => rfl⟩
  busy hi := absurd idle_nil hi

theorem walked_next {a : Nat} (hi : Idle v) (hs : NeverStale v) (h : Walked as cursors o u) :
    Walked (a :: as) (a :: cursors) o (u ++ v) where
  idle hi' := by
    obtain ⟨hsu, hprefix, hall⟩ := h.idle (idle_append.mp hi').1
    refine ⟨neverStale_append.mpr ⟨hsu, hs⟩, List.cons_prefix_cons.mpr ⟨rfl, hprefix⟩, ?_⟩
    intro s' hs'
    rw [hall s' hs']
  busy hi' s' hs' hst := by
    have hu : ¬ Idle u := fun hu => hi' (idle_append.mpr ⟨hu, hi⟩)
    exact h.busy hu s' hs' (neverStale_append.mp hst).1

theorem walked_busy (hi : ¬ Idle v) (ho : ∀ s', o = .returned s' → ¬ NeverStale v) :
    Walked as cursors o (u ++ v) where
  idle hi' := absurd (idle_append.mp hi').2 hi
  busy _ s' hs' hst := ho s' hs' (neverStale_append.mp hst).2

end

/-- What is left of a walk when it has come to the nodes `q`. -/
theorem trail_walked {cs : List (State × Option Nat)} {o : Outcome Exit State}
    (ho : Owned s.clientFds.values h') (hn : s.clientFds.nodes = p ++ q)
    (hp : ∀ m ∈ p, m.data ∈ readfds → m.data ≠ -1)
    (ht : Trail (fun c => Runs (recorded (Allowed sockFd)) (walkStep readfds c))
      (s, q.head?.map Node.address) h cs o (u ++ h)) (hc : Throughout Refused (u ++ h)) :
    Walked (q.map Node.address) (cs.filterMap Prod.snd) o u := by
  induction q generalizing p h u cs with
  | nil =>
    cases ht with
    | cut hr | stop hr =>
      obtain rfl : u = [] := List.append_left_eq_self.mp hr.2
      exact walked_end
    | halted hr | next hr _ => cases hr.1.resolve_left nofun
  | cons n q ih =>
    have hturn : Guarantees (recorded (Allowed sockFd)) (walkStep readfds (s, some n.address)) h
        (Turn s readfds n q h) := walkStep_turn hn (fun hr => first_of_owned ho hn hp hr)
    cases ht with
    | cut hr | halted hr =>
      obtain ⟨v, hv, ⟨hi, hs, _⟩ | ⟨hi, _⟩⟩ := hturn _ _ hr
      · cases List.append_cancel_right hv
        refine ⟨fun _ => ⟨hs, ?_, nofun⟩, fun hni => absurd hi hni⟩
        exact List.cons_prefix_cons.mpr ⟨rfl, List.nil_prefix⟩
      · cases List.append_cancel_right hv
        exact ⟨fun hi' => absurd hi' hi, fun _ => nofun⟩
    | stop hr =>
      obtain ⟨v, hv, ⟨_, _, hd⟩ | ⟨_, hd⟩⟩ := hturn _ _ hr
      · cases (hd _ rfl).1
      · obtain ⟨_, c, hc⟩ := hd _ rfl
        cases hc
    | next hr hrest =>
      obtain ⟨v, rfl, hv⟩ := hturn _ _ hr
      obtain ⟨w, hw⟩ := trail_suffix hrest
      obtain rfl : w ++ v = u := List.append_cancel_right ((List.append_assoc w v h).trans hw)
      obtain ⟨hi, hs, hd⟩ | ⟨hi, hd⟩ := hv
      · obtain ⟨hb, hdata⟩ := hd _ rfl
        cases hb
        rw [List.append_assoc] at hrest hc
        have hp' : ∀ m ∈ p ++ [n], m.data ∈ readfds → m.data ≠ -1 := by
          intro m hm hr
          obtain hm | hm := List.mem_append.mp hm
          · exact hp m hm hr
          · cases List.mem_singleton.mp hm
            exact hdata (throughout_of_suffix (List.suffix_append _ _) hc) hr
        exact walked_next hi hs (ih (by simpa using hn) hp' hrest hc)
      · exact walked_busy hi (fun _ _ => (hd _ rfl).1)

section

variable {s₀ s' : State} {h₀ h₁ : History} {cursors : List Nat} {o : Outcome Exit State}
variable {requestLine : RequestLine}

theorem walk_walked (ho : Owned s.clientFds.values h') (hw : Walk sockFd readfds s h cursors o u)
    (hc : Throughout Refused (u ++ h)) : Walked (addresses s) cursors o u := by
  obtain ⟨cs, ht, rfl⟩ := hw
  exact trail_walked (p := []) ho rfl (fun _ hm => absurd hm List.not_mem_nil) ht hc

theorem visitsOnce_addresses (s : State) : VisitsOnce s (addresses s) :=
  fun _ hm => List.count_eq_one_of_mem s.clientFds.nodup hm

theorem owned_awaited
    (hh : Heads (recorded (Allowed sockFd)) (mainStep sockFd) (State.start sockFd requestLine) []
      s₀ h₀)
    (ha : Runs (recorded (Allowed sockFd)) (awaitEvents sockFd s₀) h₀
      (.returned (readfds, s)) h₁) : Owned s.clientFds.values h₁ := by
  have ht := heads_preserved tracked_preserved (tracked_start requestLine) hh
  exact ((awaitEvents_preserved tracked_preserved ht _ _ ha).2 _ rfl).owned

/-- In every iteration of the main loop the walk visits each client once without a look
at a freed node exactly when no client says anything but that it has come to its end. -/
theorem walk_iff
    (hh : Heads (recorded (Allowed sockFd)) (mainStep sockFd) (State.start sockFd requestLine) []
      s₀ h₀)
    (ha : Runs (recorded (Allowed sockFd)) (awaitEvents sockFd s₀) h₀
      (.returned (readfds, s)) h₁)
    (hw : Walk sockFd readfds s h₁ cursors (.returned s') u)
    (hc : Throughout Refused (u ++ h₁)) : VisitsOnce s cursors ∧ NeverStale u ↔ Idle u := by
  have hwalked := walk_walked (owned_awaited hh ha) hw hc
  constructor
  · rintro ⟨_, hs⟩
    by_contra hi
    exact hwalked.busy hi s' rfl hs
  · intro hi
    obtain ⟨hs, _, hall⟩ := hwalked.idle hi
    rw [hall s' rfl]
    exact ⟨visitsOnce_addresses s, hs⟩

theorem walk_iff_first :
    VisitsOnce (connect (State.start 3 (Buffer.zeros _)) 5) [0] ∧ NeverStale [] ↔ Idle [] := by
  let s₀ := State.start 3 (Buffer.zeros _)
  have ha : Runs (recorded (Allowed 3)) (awaitEvents 3 s₀) [] (.returned ([3], connect s₀ 5))
      (connecting 3 s₀ 5 []) :=
    accept_runs (show (0 : Int) < 50 by decide) (.inr ⟨by decide, by decide, nofun⟩)
  have hw : Walk 3 [3] (connect s₀ 5) (connecting 3 s₀ 5 []) [0] (.returned (connect s₀ 5)) [] :=
    ⟨[(connect s₀ 5, some 0), (connect s₀ 5, none)], .next runs_done (.stop runs_done), rfl⟩
  apply walk_iff .start ha hw
  simp [connecting, throughout_cons, throughout_nil, Refused]

/-- The only client is served and its node freed before the walk goes on from it. -/
theorem freed_cursor : ¬ ∀ (sockFd : Int) (requestLine : RequestLine) (s₀ s s' : State)
    (readfds : List Int) (h₀ h₁ u : History) (cursors : List Nat),
    Heads (recorded (Allowed sockFd)) (mainStep sockFd) (State.start sockFd requestLine) []
      s₀ h₀ →
    Runs (recorded (Allowed sockFd)) (awaitEvents sockFd s₀) h₀ (.returned (readfds, s)) h₁ →
    Walk sockFd readfds s h₁ cursors (.returned s') u → Throughout Refused (u ++ h₁) →
    VisitsOnce s cursors ∧ NeverStale u := by
  intro hall
  let s := connect (State.start 3 (Buffer.zeros _)) 5
  let h₁ := ⟨.pselect 6 [3, 5], ready [5]⟩ :: connecting 3 (State.start 3 (Buffer.zeros _)) 5 []
  let u := ⟨.staleNext 0, (none : Option Nat)⟩ :: rejecting 5 (some [97]) .status400 []
  have hhead : Heads (recorded (Allowed 3)) _ _ _ s _ :=
    first_head (Buffer.zeros _) (.inr (by decide)) (by decide)
  have ha : Runs (recorded (Allowed 3)) (awaitEvents 3 s) _ (.returned ([5], s)) h₁ :=
    ready_runs (by decide) (by decide)
  obtain ⟨m₁, m₂, hm₁, hm₂⟩ := @rejected_request (Buffer.zeros _) [97] .status400
    (by decide) (by decide +kernel)
  have hturn : Runs (recorded (Allowed 3)) (walkStep [5] (s, some 0)) h₁
      (.returned (.inl (disconnect s 5 m₂, none))) (u ++ h₁) :=
    @rejected_walk 3 5 s h₁ (some [97]) m₁ m₂ .status400 0 rfl (by decide) (by decide) hm₁ hm₂
  have hw : Walk 3 [5] s h₁ [0] (.returned (disconnect s 5 m₂)) u :=
    ⟨[(s, some 0), (disconnect s 5 m₂, none)], .next hturn (.stop runs_done), rfl⟩
  refine (hall 3 _ _ s _ _ _ h₁ u _ hhead ha hw ?_).2 0 none List.mem_cons_self
  simp [u, h₁, rejecting, responding, closingIf, connecting, throughout_cons, throughout_nil,
    Refused]

end

end Ti3.Http.ClientWalk
