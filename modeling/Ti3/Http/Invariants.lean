import Ti3.Http.Descriptors
import Ti3.Http.Response

namespace Ti3.Http.Invariants

open Library.CString Library.Interaction Library.Linked Library.Rules Library.History
open Server Response Descriptors

/-- A state with one client more. -/
def connect (s : State) (fd : Int) : State :=
  { s with
    clientFds := s.clientFds.prepend fd
    clientCnt := s.clientCnt + 1
    maxFd := max s.maxFd fd }

/-- A state with one client less. -/
def disconnect (s : State) (fd : Int) (requestLine : RequestLine) : State :=
  { s with
    clientFds := s.clientFds.remove fd
    clientCnt := s.clientCnt - 1
    requestLine := requestLine }

theorem serveRead_eq {s : State} {b : Bytes} {m : RequestLine} (fd : Int)
    (hm : readInto s.requestLine b = some m) : serveRead s fd (some b) = (do
      let r ← handleRequest fd m
      match r.2 with
      | none => return disconnect s fd r.1
      | some served => do
        sendFile fd served
        return disconnect s fd r.1) := by
  simp only [serveRead, closeIf, Option.isNone_some, Bool.false_eq_true, if_false,
    Option.getD_some, hm, access, Program.pure_eq, Program.done_bind]
  rfl

theorem handleRequest_rejected {m m' : RequestLine} {status : Status} (fd : Int)
    (hp : parseRequest m = some (m', .rejected status)) : handleRequest fd m = (do
      respond status fd
      return (m', none)) := by
  simp only [handleRequest, hp, access, Program.pure_eq, Program.done_bind]

variable {allowed ok : History → (c : Call) → Answer c → Prop} {sockFd fd : Int}
variable {h h' : History}

section

/-- As long as `may` holds, the restriction `ok` of the calls lets the server
send to a client and close it. -/
structure Serviceable (ok : History → (c : Call) → Answer c → Prop) (fd : Int)
    (may : History → Prop) : Prop where
  send : ∀ {h source bytes a}, may h → ok h (.send fd source bytes) a
  close : ∀ {h a}, may h → ok h (.close fd) a
  file : ∀ {h c a}, onClient c = false → ok h c a
  same : ∀ {h h'}, Same h h' → may h → may h'

variable {may : History → Prop}

theorem respond_closed (hs : Serviceable ok fd may) (hm : may h) (status : Status) :
    Keeps allowed ok (respond status fd) h (fun _ h' => Closed fd h h') := by
  rw [respond_eq]
  refine keeps_call (fun n _ => ⟨hs.send hm, ?_⟩)
  have hm' : may (⟨.send fd .msg _, n⟩ :: h) := hs.same (h := h) (fun _ => Iff.rfl) hm
  exact keeps_call (fun _ _ => ⟨hs.close hm', keeps_done (fun _ => Iff.rfl)⟩)

theorem handleRequest_closed (hs : Serviceable ok fd may) (hm : may h)
    (requestLine : RequestLine) :
    Keeps allowed ok (handleRequest fd requestLine) h (fun r h' =>
      match r.2 with
      | none => Closed fd h h'
      | some _ => Same h h') := by
  rw [handleRequest]
  cases parseRequest requestLine with
  | none => exact keeps_halt
  | some p =>
    obtain ⟨m, request⟩ := p
    simp only [access, Program.pure_eq, Program.done_bind]
    cases request with
    | rejected status =>
      exact keeps_bind (respond_closed hs hm status) (fun _ _ hc => keeps_done hc)
    | accepted uri =>
      simp only [stat, library, ask_bind]
      refine keeps_call (fun found _ => ⟨hs.file rfl, ?_⟩)
      have hm' : may (⟨.stat uri, found⟩ :: h) := hs.same (same_other rfl) hm
      have hreject (status : Status) : Keeps allowed ok (respond status fd)
          (⟨.stat uri, found⟩ :: h) (fun _ h' => Closed fd h h') := respond_closed hs hm' status
      cases found with
      | error e => cases e <;> exact keeps_bind (hreject _) (fun _ _ hc => keeps_done hc)
      | ok size =>
        cases guessMimeType uri with
        | none => exact keeps_halt
        | some t =>
          simp only [Program.done_bind]
          cases t with
          | none => exact keeps_bind (hreject _) (fun _ _ hc => keeps_done hc)
          | some mimeType => exact keeps_done (fun _ => Iff.rfl)

theorem transfer_same (hs : Serviceable ok fd may) (hm : may h) (infile : Nat) :
    ∀ u h₁, Same h h₁ → Keeps allowed ok (transferStep fd infile u) h₁
      (Sum.elim (fun _ => Same h) (fun _ => Same h)) := by
  intro u h₁ hsame
  simp only [transferStep, fread, send, library, ask_bind]
  refine keeps_call (fun buf _ => ⟨hs.file rfl, ?_⟩)
  by_cases hb : buf = []
  · rw [if_pos hb]
    exact keeps_done hsame
  · rw [if_neg hb]
    have hm' : may (⟨.fread infile bufsize, buf⟩ :: h₁) := hs.same hsame hm
    exact keeps_call (fun _ _ => ⟨hs.send hm', keeps_done hsame⟩)

end

section

/-- The calls of the main loop itself. -/
def waits : Call → Bool
  | .pselect _ _ | .staleNext _ => true
  | _ => false

/-- What has to be shown of an invariant of the main loop: that it survives the
calls that are not about a client, a new client, a client without anything to
say, and the service of a client; and that the server may be shut down. -/
structure Preserved (allowed ok : History → (c : Call) → Answer c → Prop) (sockFd : Int)
    (I : State → History → Prop) : Prop where
  other : ∀ {s h c a}, waits c = true → I s h → ok h c a ∧ I s (⟨c, a⟩ :: h)
  accept : ∀ {s h fd}, allowed h (.accept sockFd) fd → s.clientCnt < maxClientCnt → I s h →
    ok h (.accept sockFd) fd ∧ I (connect s fd) (⟨.accept sockFd, fd⟩ :: h)
  idle : ∀ {s h fd}, fd ∈ s.clientFds.values → I s h →
    ok h (.read fd maxRequestLineLen) (some []) ∧
      I s (⟨.read fd maxRequestLineLen, some []⟩ :: h)
  serve : ∀ {s h fd bytes}, allowed h (.read fd maxRequestLineLen) bytes → bytes ≠ some [] →
    fd ∈ s.clientFds.values → I s h → ok h (.read fd maxRequestLineLen) bytes ∧
      Keeps allowed ok (serveRead s fd bytes) (⟨.read fd maxRequestLineLen, bytes⟩ :: h) I
  shutDown : ∀ {s h}, I s h →
    Keeps allowed ok (shutDown sockFd s.clientFds : Process (List Int × State)) h
      (fun _ _ => False)

variable {I : State → History → Prop} {s : State}

theorem waits_other {c : Call} (hc : waits c = true) : onClient c = false := by
  cases c with
  | accept _ | send _ _ _ | close _ => cases hc
  | _ => rfl

theorem shutDown_halts {α : Type} {Q : α → History → Prop} {clientFds : LinkedList Int} :
    Keeps allowed (fun _ _ _ => True) (shutDown sockFd clientFds : Process α) h Q := by
  refine keeps_bind (keeps_trivial (closeAll clientFds.values true)) (fun closed _ _ => ?_)
  simp only [close, library, ask_bind]
  refine keeps_call (fun a _ => ⟨trivial, ?_⟩)
  split
  · exact keeps_halt
  · exact keeps_halt

theorem serveClient_preserved (hp : Preserved allowed ok sockFd I) (hi : I s h)
    (hm : fd ∈ s.clientFds.values) (readfds : List Int) :
    Keeps allowed ok (serveClient readfds s fd) h I := by
  rw [serveClient]
  by_cases hr : fd ∈ readfds
  · simp only [if_pos hr, Server.read, library, ask_bind]
    refine keeps_call (fun bytes hbytes => ?_)
    match bytes with
    | some [] =>
      obtain ⟨hok, hi'⟩ := hp.idle hm hi
      exact ⟨hok, keeps_done hi'⟩
    | none => exact hp.serve hbytes nofun hm hi
    | some (b :: bytes) => exact hp.serve hbytes nofun hm hi
  · rw [if_neg hr]
    exact keeps_done hi

theorem walkStep_preserved (hp : Preserved allowed ok sockFd I) (readfds : List Int)
    (c : State × Option Nat) (h : History) (hi : I c.1 h) :
    Keeps allowed ok (walkStep readfds c) h (Sum.elim (fun c' => I c'.1) I) := by
  obtain ⟨s, cur⟩ := c
  cases cur with
  | none => exact keeps_done hi
  | some curClient =>
    simp only [walkStep]
    cases hn : s.clientFds.nodeAt curClient with
    | none => exact keeps_halt
    | some node =>
      refine keeps_bind (serveClient_preserved hp hi (nodeAt_mem hn) readfds) (fun s' h₁ hi' => ?_)
      rw [slistNext]
      cases s'.clientFds.next curClient with
      | some next => exact keeps_done hi'
      | none =>
        refine keeps_call (fun next _ => ?_)
        obtain ⟨hok, hi'⟩ : ok h₁ _ next ∧ I s' (⟨.staleNext curClient, next⟩ :: h₁) :=
          hp.other rfl hi'
        exact ⟨hok, keeps_done hi'⟩

theorem awaitEvents_preserved (hp : Preserved allowed ok sockFd I) (hi : I s h) :
    Keeps allowed ok (awaitEvents sockFd s) h (fun r => I r.2) := by
  simp only [awaitEvents, pselect, library, ask_bind]
  refine keeps_call (fun selected _ => ?_)
  obtain ⟨hok, hi⟩ : ok h _ selected ∧ I s (⟨.pselect _ _, selected⟩ :: h) := hp.other rfl hi
  refine ⟨hok, ?_⟩
  by_cases he : selected.error ≠ none ∧ selected.error ≠ some .eintr
  · rw [if_pos he]
    exact keeps_halt
  · rw [if_neg he]
    by_cases hg : selected.gotSigint
    · rw [if_pos hg]
      exact keeps_mono (hp.shutDown hi) (fun _ _ hf => hf.elim)
    · rw [if_neg hg]
      by_cases hs : sockFd ∈ selected.readfds ∧ s.clientCnt < maxClientCnt
      · rw [if_pos hs]
        simp only [accept, library, ask_bind]
        refine keeps_call (fun fd hfd => ?_)
        obtain ⟨hok, hi⟩ := hp.accept hfd hs.2 hi
        exact ⟨hok, keeps_done hi⟩
      · rw [if_neg hs]
        exact keeps_done hi

theorem mainStep_preserved (hp : Preserved allowed ok sockFd I) (hi : I s h) :
    Keeps allowed ok (mainStep sockFd s) h (Sum.elim I (fun _ _ => False)) := by
  rw [mainStep]
  refine keeps_bind (awaitEvents_preserved hp hi) (fun r h₁ hi' => ?_)
  obtain ⟨readfds, s⟩ := r
  exact keeps_loop (fun c => I c.1) I hi' (walkStep_preserved hp readfds)
    (fun s' h₂ hi₂ => keeps_done hi₂)

theorem heads_preserved (hp : Preserved allowed ok sockFd I) {requestLine : RequestLine}
    (h₀ : I (State.start sockFd requestLine) [])
    (hh : Heads (recorded allowed) (mainStep sockFd) (State.start sockFd requestLine) [] s h) :
    I s h :=
  heads_invariant I h₀
    (fun _ _ _ _ hi hr => (mainStep_preserved hp hi _ _ hr).2 _ rfl) hh

theorem serve_preserved (hp : Preserved allowed ok sockFd I) {requestLine : RequestLine}
    (h₀ : I (State.start sockFd requestLine) []) :
    Keeps allowed ok (serve sockFd requestLine) [] (fun _ _ => False) :=
  keeps_loop I (fun _ _ => False) h₀ (fun _ _ hi => mainStep_preserved hp hi)
    (fun _ _ hf => hf.elim)

end

end Ti3.Http.Invariants
