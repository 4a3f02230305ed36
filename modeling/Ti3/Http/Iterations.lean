import Ti3.Http.Invariants

namespace Ti3.Http.Iterations

open Library.CString Library.CMemory Library.Interaction Library.Linked Library.Rules
open Library.History Server Response Descriptors Invariants

/-- The system waits until some descriptors are ready. -/
def ready (readfds : List Int) : Selected := ⟨none, false, readfds⟩

def connecting (sockFd : Int) (s : State) (fd : Int) (h : History) : History :=
  ⟨.accept sockFd, fd⟩ ::
    ⟨.pselect (s.maxFd + 1) (sockFd :: s.clientFds.values), ready [sockFd]⟩ :: h

variable {sockFd fd : Int} {s : State} {h : History}

theorem accept_runs (hc : s.clientCnt < maxClientCnt)
    (hfd : fd = -1 ∨ 0 ≤ fd ∧ fd ≠ sockFd ∧ ¬ StillOpen h fd) :
    Runs (recorded (Allowed sockFd)) (awaitEvents sockFd s) h (.returned ([sockFd], connect s fd))
      (connecting sockFd s fd h) := by
  simp only [awaitEvents, pselect, accept, library, ask_bind]
  apply runs_call (a := ready [sockFd]) ⟨by simp [Allowed, ready], rfl⟩
  have hallowed : Allowed sockFd
      (⟨.pselect (s.maxFd + 1) (sockFd :: s.clientFds.values), ready [sockFd]⟩ :: h)
      (.accept sockFd) fd := hfd
  simp only [ready, ne_eq, not_true, false_and, if_false, Bool.false_eq_true, List.mem_singleton,
    hc, and_self, if_true]
  exact runs_call ⟨hallowed, rfl⟩ runs_done

theorem ready_runs {readfds : List Int} (hr : readfds ⊆ s.clientFds.values)
    (hs : sockFd ∉ readfds) :
    Runs (recorded (Allowed sockFd)) (awaitEvents sockFd s) h (.returned (readfds, s))
      (⟨.pselect (s.maxFd + 1) (sockFd :: s.clientFds.values), ready readfds⟩ :: h) := by
  simp only [awaitEvents, pselect, library, ask_bind]
  apply runs_call (a := ready readfds) ⟨fun _ => List.subset_cons_of_subset _ hr, rfl⟩
  simp only [ready, ne_eq, not_true, false_and, if_false, Bool.false_eq_true, hs]
  exact runs_done

/-- One client arrives while there are no others. -/
theorem first_client (he : s.clientFds.nodes = []) (hc : s.clientCnt < maxClientCnt)
    (hfd : fd = -1 ∨ 0 ≤ fd ∧ fd ≠ sockFd ∧ ¬ StillOpen h fd) (hne : fd ≠ sockFd) :
    Runs (recorded (Allowed sockFd)) (mainStep sockFd s) h (.returned (.inl (connect s fd)))
      (connecting sockFd s fd h) := by
  have hnodes : (connect s fd).clientFds.nodes = [⟨s.clientFds.fresh, fd⟩] := by
    simp [connect, LinkedList.prepend, he]
  have hstep : Runs (recorded (Allowed sockFd))
      (walkStep [sockFd] (connect s fd, some s.clientFds.fresh)) (connecting sockFd s fd h)
      (.returned (.inl (connect s fd, none))) (connecting sockFd s fd h) := by
    simp only [walkStep, LinkedList.nodeAt, hnodes]
    simpa [serveClient, hne, slistNext, LinkedList.next, hnodes] using runs_done
  have hstop : Runs (recorded (Allowed sockFd)) (walkStep [sockFd] (connect s fd, none))
      (connecting sockFd s fd h) (.returned (.inr (connect s fd))) (connecting sockFd s fd h) :=
    runs_done
  rw [mainStep, runs_bind]
  exact .next (accept_runs hc hfd) (.next (.next hstep (.stop hstop)) runs_done)

/-- The first iteration of the server. -/
theorem first_head (requestLine : RequestLine) (hfd : fd = -1 ∨ 0 ≤ fd) (hne : fd ≠ sockFd) :
    Heads (recorded (Allowed sockFd)) (mainStep sockFd) (State.start sockFd requestLine) []
      (connect (State.start sockFd requestLine) fd)
      (connecting sockFd (State.start sockFd requestLine) fd []) := by
  have hc : (State.start sockFd requestLine).clientCnt < maxClientCnt :=
    show (0 : Int) < 50 by decide
  exact .next .start (first_client rfl hc (hfd.imp_right (fun h₀ => ⟨h₀, hne, nofun⟩)) hne)

def responding (fd : Int) (status : Status) (h : History) : History :=
  let text := errorText status.msg ++ [0]
  ⟨.close fd, (0 : Int)⟩ :: ⟨.send fd .msg text, (text.length : Int)⟩ :: h

theorem respond_runs (status : Status) :
    Runs (recorded (Allowed sockFd)) (respond status fd) h (.returned ())
      (responding fd status h) := by
  rw [respond_eq]
  refine runs_call ⟨?_, rfl⟩ (runs_call ⟨trivial, rfl⟩ runs_done)
  exact Int.le_refl _

def closingIf (failed : Bool) (fd : Int) (h : History) : History :=
  if failed then ⟨.close fd, (0 : Int)⟩ :: h else h

theorem closeIf_runs (failed : Bool) :
    Runs (recorded (Allowed sockFd)) (closeIf failed fd) h (.returned ())
      (closingIf failed fd h) := by
  cases failed with
  | false => exact runs_done
  | true =>
    simp only [closeIf, close, library, if_true, ask_bind]
    exact runs_call ⟨trivial, rfl⟩ runs_done

/-- What happens for a client whose request is rejected, or cannot be read. -/
def rejecting (fd : Int) (bytes : Option Bytes) (status : Status) (h : History) : History :=
  responding fd status (closingIf bytes.isNone fd (⟨.read fd maxRequestLineLen, bytes⟩ :: h))

variable {bytes : Option Bytes} {m₁ m₂ : RequestLine} {status : Status}

theorem serveClient_runs {readfds : List Int} (hf : fd ∈ readfds) (hb : bytes ≠ some [])
    (hl : (bytes.getD []).length ≤ maxRequestLineLen)
    (h₁ : readInto s.requestLine (bytes.getD []) = some m₁)
    (h₂ : parseRequest m₁ = some (m₂, .rejected status)) :
    Runs (recorded (Allowed sockFd)) (serveClient readfds s fd) h
      (.returned (disconnect s fd m₂)) (rejecting fd bytes status h) := by
  have hserve : Runs (recorded (Allowed sockFd)) (serveRead s fd bytes)
      (⟨.read fd maxRequestLineLen, bytes⟩ :: h) (.returned (disconnect s fd m₂))
      (rejecting fd bytes status h) := by
    simp only [serveRead, h₁, handleRequest_rejected fd h₂, access, Program.pure_eq,
      Program.done_bind, bind_assoc]
    rw [runs_bind]
    refine .next (closeIf_runs bytes.isNone) ?_
    rw [runs_bind]
    exact .next (respond_runs status) runs_done
  simp only [serveClient, if_pos hf, Server.read, library, ask_bind]
  have hallowed : Allowed sockFd h (.read fd maxRequestLineLen) bytes := hl
  apply runs_call ⟨hallowed, rfl⟩
  cases bytes with
  | none => exact hserve
  | some bytes =>
    cases bytes with
    | nil => exact absurd rfl hb
    | cons b bytes => exact hserve

/-- The turn of the walk at the only client, which sends something that is
rejected, or cannot be read. -/
theorem rejected_walk {address : Nat} (hn : s.clientFds.nodes = [⟨address, fd⟩])
    (hb : bytes ≠ some []) (hl : (bytes.getD []).length ≤ maxRequestLineLen)
    (h₁ : readInto s.requestLine (bytes.getD []) = some m₁)
    (h₂ : parseRequest m₁ = some (m₂, .rejected status)) :
    Runs (recorded (Allowed sockFd)) (walkStep [fd] (s, some address)) h
      (.returned (.inl (disconnect s fd m₂, none)))
      (⟨.staleNext address, (none : Option Nat)⟩ :: rejecting fd bytes status h) := by
  have hnext : (disconnect s fd m₂).clientFds.next address = none := by
    simp [disconnect, LinkedList.next, LinkedList.remove, hn]
  simp only [walkStep, LinkedList.nodeAt, hn, List.find?_cons, decide_true]
  rw [runs_bind]
  refine .next (serveClient_runs List.mem_cons_self hb hl h₁ h₂) ?_
  simp only [slistNext, hnext, staleNext, library, ask_bind]
  exact runs_call ⟨trivial, rfl⟩ runs_done

/-- The only client sends something that is rejected, or cannot be read. -/
theorem rejected_client {address : Nat} (hn : s.clientFds.nodes = [⟨address, fd⟩])
    (hne : fd ≠ sockFd) (hb : bytes ≠ some [])
    (hl : (bytes.getD []).length ≤ maxRequestLineLen)
    (h₁ : readInto s.requestLine (bytes.getD []) = some m₁)
    (h₂ : parseRequest m₁ = some (m₂, .rejected status)) :
    Runs (recorded (Allowed sockFd)) (mainStep sockFd s) h
      (.returned (.inl (disconnect s fd m₂)))
      (⟨.staleNext address, (none : Option Nat)⟩ :: rejecting fd bytes status
        (⟨.pselect (s.maxFd + 1) (sockFd :: s.clientFds.values), ready [fd]⟩ :: h)) := by
  have hr : [fd] ⊆ s.clientFds.values := by simp [LinkedList.values, hn]
  have hs : sockFd ∉ [fd] := by simpa using Ne.symm hne
  have hfirst : s.clientFds.first = some address := by simp [LinkedList.first, hn]
  have hstep : Runs (recorded (Allowed sockFd)) _
    (⟨.pselect (s.maxFd + 1) (sockFd :: s.clientFds.values), ready [fd]⟩ :: h) _ _ :=
    rejected_walk hn hb hl h₁ h₂
  rw [← hfirst] at hstep
  rw [mainStep, runs_bind]
  refine .next (ready_runs hr hs) ?_
  exact .next (.next hstep (.stop runs_done)) runs_done

/-- The first two iterations of the server. -/
theorem second_head {m : RequestLine} (hfd : 0 ≤ fd) (hne : fd ≠ sockFd) (hb : bytes ≠ some [])
    (hl : (bytes.getD []).length ≤ maxRequestLineLen)
    (h₁ : readInto m (bytes.getD []) = some m₁)
    (h₂ : parseRequest m₁ = some (m₂, .rejected status)) :
    Heads (recorded (Allowed sockFd)) (mainStep sockFd) (State.start sockFd m) []
      (disconnect (connect (State.start sockFd m) fd) fd m₂)
      (⟨.staleNext 0, (none : Option Nat)⟩ :: rejecting fd bytes status
        (⟨.pselect (max sockFd fd + 1) [sockFd, fd], ready [fd]⟩ ::
          connecting sockFd (State.start sockFd m) fd [])) :=
  .next (first_head m (.inr hfd) hne) (rejected_client rfl hne hb hl h₁ h₂)

/-- Another client arrives after the first one has gone. -/
theorem third_head {m : RequestLine} (hfd : 0 ≤ fd) (hne : fd ≠ sockFd) (hb : bytes ≠ some [])
    (hl : (bytes.getD []).length ≤ maxRequestLineLen)
    (h₁ : readInto m (bytes.getD []) = some m₁)
    (h₂ : parseRequest m₁ = some (m₂, .rejected status)) :
    ∃ h, Heads (recorded (Allowed sockFd)) (mainStep sockFd) (State.start sockFd m) []
      (connect (disconnect (connect (State.start sockFd m) fd) fd m₂) fd) h := by
  have hn : (disconnect (connect (State.start sockFd m) fd) fd m₂).clientFds.nodes = [] := by
    simp [disconnect, connect, State.start, LinkedList.empty, LinkedList.prepend, LinkedList.remove]
  exact ⟨_, .next (second_head hfd hne hb hl h₁ h₂)
    (first_client hn (show (0 : Int) < 50 by decide) (.inr ⟨hfd, hne, fun ho => ho.1 rfl⟩) hne)⟩

end Ti3.Http.Iterations
