import Ti3.Http.CloseOnce

namespace Ti3.Http.EndOfFile

open Library.CString Library.CMemory Library.Interaction Library.Linked Library.Rules
open Library.History Server Response Descriptors Invariants Iterations CloseOnce

-- The texts are known by their equations; evaluating them on the way is slow.
attribute [local irreducible] message header

/-- Since `accept` returned a descriptor a read from it has returned 0. -/
def Ended : History → Int → Prop
  | [], _ => False
  | ⟨.accept _, fd⟩ :: h, d => d ≠ fd ∧ Ended h d
  | ⟨.read fd _, some []⟩ :: h, d => d = fd ∨ Ended h d
  | _ :: h, d => Ended h d

/-- The last read from a descriptor has returned 0. -/
def Silent : History → Int → Prop
  | [], _ => False
  | ⟨.accept _, fd⟩ :: h, d => d ≠ fd ∧ Silent h d
  | ⟨.read fd _, bytes⟩ :: h, d => if d = fd then bytes = some [] else Silent h d
  | _ :: h, d => Silent h d

/-- No client that has come to its end is in the list, and so none is counted. -/
def Released (s : State) (h : History) : Prop :=
  (∀ d ∈ s.clientFds.values, d ≠ -1 → ¬ Ended h d) ∧ s.clientCnt = s.clientFds.values.length

/-- The calls with which a client is served once its request has been read. -/
def Serves (fd : Int) : Call → Prop
  | .accept _ | .read _ _ | .pselect _ _ | .staleNext _ => False
  | .send d _ _ | .close d => d = fd
  | _ => True

variable {sockFd fd : Int} {s : State} {h h' : History}

theorem only_access {α β : Type} {P : Call → Prop} {a : Option α} {f : α → Process β}
    (hf : ∀ b, Only P (f b)) : Only P (access a >>= f) := by
  cases a with
  | none => trivial
  | some b => exact hf b

theorem only_respond (status : Status) : Only (Serves fd) (respond status fd) :=
  only_access (fun _ => ⟨rfl, fun _ => ⟨rfl, fun _ => trivial⟩⟩)

theorem only_handleRequest (requestLine : RequestLine) :
    Only (Serves fd) (handleRequest fd requestLine) := by
  refine only_access (fun p => ?_)
  obtain ⟨m, request⟩ := p
  have hreject (status : Status) : Only (Serves fd)
      (do respond status fd; .done (m, (none : Option Served))) :=
    only_bind (only_respond status) (fun _ => trivial)
  cases request with
  | rejected status => exact hreject status
  | accepted uri =>
    refine ⟨trivial, fun found => ?_⟩
    cases found with
    | error e => cases e <;> exact hreject _
    | ok size =>
      refine only_access (fun t => ?_)
      cases t with
      | none => exact hreject _
      | some mimeType => trivial

theorem only_transferStep (infile : Nat) (u : Unit) :
    Only (Serves fd) (transferStep fd infile u) := by
  refine only_bind (p := fread infile bufsize) ⟨trivial, fun _ => trivial⟩ (fun buf => ?_)
  split
  · trivial
  · exact ⟨rfl, fun _ => trivial⟩

theorem only_respondIf (failed : Bool) (status : Status) :
    Only (Serves fd) (respondIf failed status fd) := by
  cases failed with
  | false => trivial
  | true => exact only_respond status

theorem only_sendFile (served : Served) : Only (Serves fd) (sendFile fd served) := by
  refine only_access (fun header => ?_)
  refine only_bind (p := send fd .header header) ⟨rfl, fun _ => trivial⟩ (fun sent => ?_)
  split
  · trivial
  · refine only_bind (p := fopen served.uri) ⟨trivial, fun _ => trivial⟩ (fun found => ?_)
    cases found with
    | error e => cases e <;> exact only_respond _
    | ok infile =>
      refine ⟨only_transferStep infile, fun _ => ?_⟩
      refine only_bind (p := ferror infile) ⟨trivial, fun _ => trivial⟩ (fun failed => ?_)
      refine only_bind (only_respondIf failed _) (fun _ => ?_)
      exact ⟨trivial, fun _ => ⟨rfl, fun _ => trivial⟩⟩

theorem only_serveRead (bytes : Option Bytes) : Only (Serves fd) (serveRead s fd bytes) := by
  refine only_bind ?_ (fun _ => only_access (fun requestLine => ?_))
  · cases bytes with
    | none => exact ⟨rfl, fun _ => trivial⟩
    | some bytes => trivial
  · refine only_bind (only_handleRequest requestLine) (fun r => ?_)
    obtain ⟨requestLine, served⟩ := r
    cases served with
    | none => trivial
    | some served => exact only_bind (only_sendFile served) (fun _ => trivial)

/-- Whatever happens to a request, its client has gone from the list. -/
theorem serveRead_removes {allowed : History → (c : Call) → Answer c → Prop}
    (bytes : Option Bytes) : Keeps allowed (fun _ _ _ => True) (serveRead s fd bytes) h
      (fun s' _ => s'.clientFds = s.clientFds.remove fd ∧ s'.clientCnt = s.clientCnt - 1 ∧
        s'.maxFd = s.maxFd) := by
  refine keeps_bind (keeps_trivial _) (fun _ _ _ => ?_)
  simp only []
  cases readInto s.requestLine (bytes.getD []) with
  | none => exact keeps_halt
  | some requestLine =>
    simp only [access, Program.pure_eq, Program.done_bind]
    refine keeps_bind (keeps_trivial _) (fun r _ _ => ?_)
    obtain ⟨requestLine, served⟩ := r
    cases served with
    | none => exact keeps_done ⟨rfl, rfl, rfl⟩
    | some served =>
      exact keeps_bind (keeps_trivial _) (fun _ _ _ => keeps_done ⟨rfl, rfl, rfl⟩)

/-- The list holds open descriptors, none of them twice, and every client in it
that has come to its end has not been heard of since. -/
structure Tracked (s : State) (h : History) : Prop where
  owned : Owned s.clientFds.values h
  silent : ∀ d, d ≠ -1 → (Silent h d ↔ d ∈ s.clientFds.values ∧ Ended h d)
  counted : s.clientCnt = s.clientFds.values.length

theorem tracked_start (requestLine : RequestLine) : Tracked (State.start sockFd requestLine) [] :=
  ⟨fun _ hd => absurd hd List.not_mem_nil, fun _ _ => ⟨nofun, And.right⟩, rfl⟩

theorem tracked_waits {c : Call} {a : Answer c} (hc : waits c = true) (ht : Tracked s h) :
    Tracked s (⟨c, a⟩ :: h) := by
  refine ⟨owned_same ht.owned (same_other (waits_other hc)), fun d hne => ?_, ht.counted⟩
  cases c with
  | pselect _ _ | staleNext _ => exact ht.silent d hne
  | _ => cases hc

theorem tracked_accept {a : Int} (ha : Allowed sockFd h (.accept sockFd) a) (ht : Tracked s h) :
    Tracked (connect s a) (⟨.accept sockFd, a⟩ :: h) := by
  refine ⟨owned_cons ht.owned (ha.imp_right (·.2.2)), fun d hne => ?_, ?_⟩
  · by_cases he : d = a
    · exact ⟨fun hs => absurd he hs.1, fun hs => absurd he hs.2.1⟩
    · have hmem : d ∈ (connect s a).clientFds.values ↔ d ∈ s.clientFds.values := by
        simp [connect, he]
      rw [hmem]
      exact (and_iff_right he).trans
        ((ht.silent d hne).trans (and_congr_right' (and_iff_right he).symm))
  · simp [connect, ht.counted]

theorem tracked_idle (hm : fd ∈ s.clientFds.values) (ht : Tracked s h) :
    Tracked s (⟨.read fd maxRequestLineLen, some []⟩ :: h) := by
  refine ⟨owned_same ht.owned (same_other rfl), fun d hne => ?_, ht.counted⟩
  by_cases he : d = fd
  · simp [Silent, Ended, he, hm]
  · simpa [Silent, Ended, he] using ht.silent d hne

theorem not_mem_erase_of_owned {fds : List Int} (ho : Owned fds h) (hm : fd ∈ fds)
    (hne : fd ≠ -1) : fd ∉ fds.erase fd := by
  rw [← List.count_eq_zero, List.count_erase_self, (ho fd hm hne).2]

theorem tracked_serve {allowed : History → (c : Call) → Answer c → Prop} {bytes : Option Bytes}
    (hb : bytes ≠ some []) (hm : fd ∈ s.clientFds.values) (ht : Tracked s h) :
    Keeps allowed (fun _ _ _ => True) (serveRead s fd bytes)
      (⟨.read fd maxRequestLineLen, bytes⟩ :: h) Tracked := by
  have hended (d : Int) : Ended (⟨.read fd maxRequestLineLen, bytes⟩ :: h) d ↔ Ended h d := by
    match bytes with
    | some [] => exact absurd rfl hb
    | none | some (_ :: _) => exact Iff.rfl
  have hkept : Keeps allowed (fun _ _ _ => True) (serveRead s fd bytes)
      (⟨.read fd maxRequestLineLen, bytes⟩ :: h) (fun _ h' => Others fd h h' ∧
        ∀ d, (Silent h' d ↔ if d = fd then bytes = some [] else Silent h d) ∧
          (Ended h' d ↔ Ended h d)) := by
    refine keeps_only (only_serveRead bytes) _ (fun h' c a hc hi => ?_)
      ⟨fun _ _ => Iff.rfl, fun d => ⟨Iff.rfl, hended d⟩⟩
    cases c with
    | accept _ | read _ _ | pselect _ _ | staleNext _ => exact hc.elim
    | close d' =>
      have he : d' = fd := hc
      exact ⟨fun d hd => (and_iff_right (he ▸ hd)).trans (hi.1 d hd), hi.2⟩
    | _ => exact hi
  refine keeps_mono (keeps_and (serveRead_removes bytes) hkept) (fun s' h' hr => ?_)
  obtain ⟨⟨hclients, hcnt, _⟩, hothers, hheard⟩ := hr
  have hvalues : s'.clientFds.values = s.clientFds.values.erase fd := by
    rw [hclients, values_remove]
  refine ⟨?_, fun d hne => ?_, ?_⟩
  · rw [hvalues]
    exact owned_erase ht.owned hothers
  · rw [(hheard d).1, (hheard d).2, hvalues]
    by_cases he : d = fd
    · subst he
      simp [hb, not_mem_erase_of_owned ht.owned hm hne]
    · rw [if_neg he, ht.silent d hne, List.mem_erase_of_ne he]
  · have hpos := List.length_pos_of_mem hm
    rw [hvalues, hcnt, ht.counted, List.length_erase_of_mem hm]
    omega

theorem tracked_preserved :
    Preserved (Allowed sockFd) (fun _ _ _ => True) sockFd Tracked where
  other hc ht := ⟨trivial, tracked_waits hc ht⟩
  accept ha _ ht := ⟨trivial, tracked_accept ha ht⟩
  idle hm ht := ⟨trivial, tracked_idle hm ht⟩
  serve _ hb hm ht := ⟨trivial, tracked_serve hb hm ht⟩
  shutDown _ := shutDown_halts

theorem released_of_tracked (ht : Tracked s h) :
    Released s h ↔ ∀ d, d ≠ -1 → ¬ Silent h d := by
  refine ⟨fun hr d hne hs => ?_, fun hs => ⟨fun d hd hne he => ?_, ht.counted⟩⟩
  · obtain ⟨hd, he⟩ := (ht.silent d hne).mp hs
    exact hr.1 d hd hne he
  · exact hs d hne ((ht.silent d hne).mpr ⟨hd, he⟩)

/-- Whenever the main loop starts again, the clients that have come to their
end have gone exactly when no last read has returned 0. -/
theorem released_iff {requestLine : RequestLine}
    (hh : Heads (recorded (Allowed sockFd)) (mainStep sockFd) (State.start sockFd requestLine) []
      s h) : Released s h ↔ ∀ d, d ≠ -1 → ¬ Silent h d :=
  released_of_tracked (heads_preserved tracked_preserved (tracked_start requestLine) hh)

theorem released_iff_first :
    Released (connect (State.start 3 (Buffer.zeros _)) 5)
      (connecting 3 (State.start 3 (Buffer.zeros _)) 5 []) ↔
      ∀ d, d ≠ -1 → ¬ Silent (connecting 3 (State.start 3 (Buffer.zeros _)) 5 []) d :=
  released_iff (first_head (Buffer.zeros _) (.inr (by decide)) (by decide))

/-- The only client has closed its connection. -/
theorem silent_client {address : Nat} (hn : s.clientFds.nodes = [⟨address, fd⟩])
    (hne : fd ≠ sockFd) :
    Runs (recorded (Allowed sockFd)) (mainStep sockFd s) h (.returned (.inl s))
      (⟨.read fd maxRequestLineLen, some []⟩ ::
        ⟨.pselect (s.maxFd + 1) (sockFd :: s.clientFds.values), ready [fd]⟩ :: h) := by
  have hr : [fd] ⊆ s.clientFds.values := by simp [LinkedList.values, hn]
  have hs : sockFd ∉ [fd] := by simpa using Ne.symm hne
  have hfirst : s.clientFds.first = some address := by simp [LinkedList.first, hn]
  have hnext : s.clientFds.next address = some none := by simp [LinkedList.next, hn]
  have hstep (h : History) : Runs (recorded (Allowed sockFd)) (walkStep [fd] (s, some address)) h
      (.returned (.inl (s, none))) (⟨.read fd maxRequestLineLen, some []⟩ :: h) := by
    simp only [walkStep, LinkedList.nodeAt, hn, List.find?_cons, decide_true, serveClient,
      List.mem_singleton, if_true, Server.read, library, ask_bind, Program.call_bind]
    have hallowed : Allowed sockFd h (.read fd maxRequestLineLen) (some []) := Nat.zero_le _
    apply runs_call ⟨hallowed, rfl⟩
    simp only [Program.pure_eq, Program.done_bind, slistNext, hnext]
    exact runs_done
  rw [← hfirst] at hstep
  rw [mainStep, runs_bind]
  exact .next (ready_runs hr hs) (.next (.next (hstep _) (.stop runs_done)) runs_done)

theorem closed_client_listed : ¬ ∀ (sockFd : Int) (requestLine : RequestLine) (s : State)
    (h : History), Heads (recorded (Allowed sockFd)) (mainStep sockFd)
      (State.start sockFd requestLine) [] s h → Released s h := by
  intro hall
  have hhead : Heads (recorded (Allowed 3)) _ _ _ (connect (State.start 3 (Buffer.zeros _)) 5) _ :=
    first_head (Buffer.zeros _) (.inr (by decide)) (by decide)
  have hr := hall 3 _ _ _ (.next hhead (silent_client rfl (by decide)))
  exact hr.1 5 List.mem_cons_self (by decide) (.inl rfl)

/-- Clients never say anything but that they have come to their end. -/
def AtEnd (_ : History) (c : Call) (a : Answer c) : Prop :=
  match c, a with
  | .read _ _, bytes => bytes = some []
  | _, _ => True

/-- As many clients as the server takes keep it from accepting another one for
as long as they are at their end. -/
theorem full_stays {s' : State} (hfull : maxClientCnt ≤ s.clientCnt)
    (hh : Heads (recorded (fun h c a => Allowed sockFd h c a ∧ AtEnd h c a)) (mainStep sockFd) s h
      s' h') : s' = s := by
  have hp : Preserved (fun h c a => Allowed sockFd h c a ∧ AtEnd h c a) (fun _ _ _ => True) sockFd
      (fun s' _ => s' = s) :=
    { other := fun _ he => ⟨trivial, he⟩
      accept := fun _ hlt he => absurd hlt (Int.not_lt.mpr (he ▸ hfull))
      idle := fun _ he => ⟨trivial, he⟩
      serve := fun ha hb _ _ => absurd ha.2 hb
      shutDown := fun _ => shutDown_halts }
  exact heads_invariant (fun s' _ => s' = s) rfl
    (fun _ _ _ _ he hr => (mainStep_preserved hp he _ _ hr).2 _ rfl) hh

end Ti3.Http.EndOfFile
