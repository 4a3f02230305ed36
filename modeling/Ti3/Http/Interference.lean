import Mathlib.Data.Set.Basic
import Ti3.Http.Iterations
import Ti3.Http.RequestLine
import Ti3.Library.Determinism
import Ti3.Library.Simulation

namespace Ti3.Http.Interference

open Library.CString Library.CMemory Library.Interaction Library.Linked Library.Rules
open Library.Determinism Library.History Library.Simulation
open Server RequestLine Response Descriptors Invariants Iterations

/-- What a response depends on besides the request: the files on disk and how
much the connection takes of what is sent. -/
structure Surroundings where
  stat : Bytes → Except Errno Int
  fopen : Bytes → Except Errno Nat
  fread : Nat → Nat → Bytes
  ferror : Nat → Bool
  takes : List Bytes → Bytes → Int

/-- A response so far: what has been sent, the latest first, and how often the
connection has been closed; and how often the file has been read. -/
structure Exchange where
  sent : List Bytes
  closed : Nat
  freads : Nat

def Exchange.start : Exchange := ⟨[], 0, 0⟩

def Surroundings.answer (surroundings : Surroundings) (w : Exchange) :
    (c : Call) → Answer c × Exchange
  | .stat path => (surroundings.stat path, w)
  | .fopen path => (surroundings.fopen path, w)
  | .fread file count =>
    ((surroundings.fread file w.freads).take count, { w with freads := w.freads + 1 })
  | .ferror file => (surroundings.ferror file, w)
  | .fclose _ => (0, w)
  | .send _ _ bytes => (surroundings.takes w.sent bytes, { w with sent := bytes :: w.sent })
  | .close _ => (0, { w with closed := w.closed + 1 })
  | .pselect _ _ => (⟨some .other, false, []⟩, w)
  | .accept _ => (-1, w)
  | .read _ _ => (none, w)
  | .staleNext _ => (none, w)

/-- The stages of the response to a client whose request has been read, with
the way it ends. -/
def response (surroundings : Surroundings) (s : State) (clientFd : Int) (b : Bytes) :
    Set (Outcome Exit Unit × Exchange) :=
  {r | Runs (handled surroundings.answer) (do let _ ← serveRead s clientFd (some b)) .start r.1 r.2}

/-- In some run of the server a request is about to be read from a client. -/
inductive Meets (sockFd : Int) (requestLine : RequestLine) (s : State) (clientFd : Int) : Prop
  | walk {s₀ s₁ : State} {h₀ h₁ h : History} {readfds : List Int} {curClient : Nat}
      {node : Node Int} :
      Heads (recorded (Allowed sockFd)) (mainStep sockFd) (State.start sockFd requestLine) []
        s₀ h₀ →
      Runs (recorded (Allowed sockFd)) (awaitEvents sockFd s₀) h₀ (.returned (readfds, s₁)) h₁ →
      Heads (recorded (Allowed sockFd)) (walkStep readfds) (s₁, s₁.clientFds.first) h₁
        (s, some curClient) h →
      s.clientFds.nodeAt curClient = some node → node.data = clientFd → clientFd ∈ readfds →
      Meets sockFd requestLine s clientFd

/-- The response to some bytes is the same in every two runs of the server. -/
def NoInterference (b : Bytes) : Prop :=
  ∀ (surroundings : Surroundings) (requestLine : RequestLine) (sockFd sockFd' : Int)
    (s s' : State) (clientFd clientFd' : Int), Meets sockFd requestLine s clientFd →
    Meets sockFd' requestLine s' clientFd' →
    response surroundings s clientFd b = response surroundings s' clientFd' b

variable {surroundings : Surroundings} {fd fd' : Int} {m m' : RequestLine} {b : Bytes}

theorem respond_mimics (status : Status) :
    Mimics (handled surroundings.answer) (fun _ _ => True) (respond status fd)
      (respond status fd') := by
  rw [respond_eq, respond_eq]
  refine mimics_call id (fun _ _ _ h => h) (fun _ => ?_)
  exact mimics_call id (fun _ _ _ h => h) (fun _ => mimics_done trivial)

theorem handleRequest_mimics (hp : (parseRequest m).map Prod.snd = (parseRequest m').map Prod.snd) :
    Mimics (handled surroundings.answer) (fun r r' => r.2 = r'.2) (handleRequest fd m)
      (handleRequest fd' m') := by
  unfold handleRequest
  cases h : parseRequest m with
  | none =>
    rw [h, Option.map_none, eq_comm, Option.map_eq_none_iff] at hp
    rw [hp]
    exact mimics_halt
  | some p =>
    obtain ⟨m, request⟩ := p
    rw [h, Option.map_some, eq_comm, Option.map_eq_some_iff] at hp
    obtain ⟨⟨m', request'⟩, h', he⟩ := hp
    cases he
    rw [h']
    simp only [access, Program.pure_eq, Program.done_bind]
    have hreject (status : Status) : Mimics (handled surroundings.answer)
        (fun r r' => r.2 = r'.2)
        (do respond status fd; .done (m, (none : Option Served)))
        (do respond status fd'; .done (m', (none : Option Served))) :=
      mimics_bind (respond_mimics status) (fun _ _ _ => mimics_done rfl)
    cases request with
    | rejected status => exact hreject status
    | accepted uri =>
      simp only [stat, library, ask_bind]
      refine mimics_call id (fun _ _ _ h => h) (fun found => ?_)
      cases found with
      | error e => cases e <;> exact hreject _
      | ok size =>
        simp only [id]
        cases guessMimeType uri with
        | none => exact mimics_halt
        | some t =>
          simp only [Program.done_bind]
          cases t with
          | none => exact hreject _
          | some mimeType => exact mimics_done rfl

theorem transfer_mimics (infile : Nat) (u u' : Unit) :
    Mimics (handled surroundings.answer) (Sum.LiftRel (fun _ _ => True) (fun _ _ => True))
      (transferStep fd infile u) (transferStep fd' infile u') := by
  simp only [transferStep, fread, send, library, ask_bind]
  refine mimics_call id (fun _ _ _ h => h) (fun buf => ?_)
  simp only [id]
  by_cases hb : buf = []
  · rw [if_pos hb, if_pos hb]
    exact mimics_done (.inr trivial)
  · rw [if_neg hb, if_neg hb]
    exact mimics_call id (fun _ _ _ h => h) (fun _ => mimics_done (.inl trivial))

theorem respondIf_mimics (failed : Bool) (status : Status) :
    Mimics (handled surroundings.answer) (fun _ _ => True) (respondIf failed status fd)
      (respondIf failed status fd') := by
  cases failed with
  | false => exact mimics_done trivial
  | true => exact respond_mimics status

theorem sendFile_mimics (served : Served) :
    Mimics (handled surroundings.answer) (fun _ _ => True) (sendFile fd served)
      (sendFile fd' served) := by
  unfold sendFile
  cases header served.mimeType served.size with
  | none => exact mimics_halt
  | some header =>
    simp only [access, Program.pure_eq, Program.done_bind, send, fopen, library, ask_bind]
    refine mimics_call id (fun _ _ _ h => h) (fun sent => ?_)
    simp only [id]
    by_cases hs : sent ≠ header.length
    · rw [if_pos hs, if_pos hs]
      exact mimics_done trivial
    · rw [if_neg hs, if_neg hs]
      refine mimics_call id (fun _ _ _ h => h) (fun found => ?_)
      cases found with
      | error e => cases e <;> exact respond_mimics _
      | ok infile =>
        refine mimics_loop (S := fun _ _ => True) (fun _ _ => True) trivial
          (fun u u' _ => transfer_mimics infile u u') (fun _ _ _ => ?_)
        simp only [ferror, fclose, close, library, ask_bind]
        refine mimics_call id (fun _ _ _ h => h) (fun failed => ?_)
        refine mimics_bind (respondIf_mimics failed _) (fun _ _ _ => ?_)
        refine mimics_call id (fun _ _ _ h => h) (fun _ => ?_)
        exact mimics_call id (fun _ _ _ h => h) (fun _ => mimics_done trivial)

theorem serveRead_mimics {s s' : State} (hb : b.length ≤ maxRequestLineLen)
    (hs : stringRequest ((delivered s.requestLine b).takeWhile (· ≠ 0)) =
      stringRequest ((delivered s'.requestLine b).takeWhile (· ≠ 0))) :
    Mimics (handled surroundings.answer) (fun _ _ => True) (serveRead s fd (some b))
      (serveRead s' fd' (some b)) := by
  obtain ⟨m, hm, _⟩ : ∃ m, readInto s.requestLine b = some m ∧ _ := readInto_eq hb
  obtain ⟨m', hm', _⟩ : ∃ m, readInto s'.requestLine b = some m ∧ _ := readInto_eq hb
  have hp : (parseRequest m).map Prod.snd = (parseRequest m').map Prod.snd := by
    rw [parse_readInto hb hm, parse_readInto hb hm', hs]
  rw [serveRead_eq fd hm, serveRead_eq fd' hm']
  refine mimics_bind (handleRequest_mimics hp) (fun r r' hr => ?_)
  obtain ⟨m₁, served⟩ := r
  obtain ⟨m₁', served'⟩ := r'
  cases hr
  cases served with
  | none => exact mimics_done trivial
  | some served => exact mimics_bind (sendFile_mimics served) (fun _ _ _ => mimics_done trivial)

theorem response_subset {s s' : State} (hb : b.length ≤ maxRequestLineLen)
    (hs : stringRequest ((delivered s.requestLine b).takeWhile (· ≠ 0)) =
      stringRequest ((delivered s'.requestLine b).takeWhile (· ≠ 0))) :
    response surroundings s fd b ⊆ response surroundings s' fd' b := by
  rintro ⟨o, w⟩ hr
  have hm : Mimics (handled surroundings.answer) Eq (do let _ ← serveRead s fd (some b))
      (do let _ ← serveRead s' fd' (some b)) :=
    mimics_bind (serveRead_mimics hb hs) (fun _ _ _ => mimics_done rfl)
  obtain ⟨o', ho, hr'⟩ := hm _ _ _ hr
  cases ho with
  | cut => exact hr'
  | halted => exact hr'
  | returned h => exact h ▸ hr'

/-- A request that ends within the bytes that were read does not show what the
array held before. -/
theorem delivered_string {old : RequestLine}
    (h : newline ∈ b ∨ 0 ∈ b ∨ b.length = maxRequestLineLen) :
    stringRequest ((delivered old b).takeWhile (· ≠ 0)) =
      stringRequest (b.takeWhile (· ≠ 0)) := by
  by_cases h₀ : 0 ∈ b
  · obtain ⟨u, v, rfl, hu⟩ := List.eq_append_cons_of_mem h₀
    rw [delivered, List.append_assoc, List.cons_append, takeWhile_string hu, takeWhile_string hu]
  · rw [delivered, takeWhile_behind h₀, takeWhile_whole h₀]
    obtain hn | h₀' | hl := h
    · obtain ⟨u, v, rfl, hu⟩ := List.eq_append_cons_of_mem hn
      rw [List.append_assoc, List.cons_append]
      simp only [stringRequest, cut_append hu]
    · exact absurd h₀' h₀
    · have hx : (old.bytes.take maxRequestLineLen).drop b.length = [] := by
        rw [List.drop_eq_nil_iff, List.length_take, hl]
        omega
      rw [hx, List.takeWhile_nil, List.append_nil]

/-- The request that is left behind in the other direction: no blank, and a
newline at the very end of the array. -/
def poison : Bytes := ascii "A/" ++ List.replicate 497 120 ++ [newline]

theorem poison_length : poison.length ≤ maxRequestLineLen := by decide +kernel

theorem parse_poison : ∃ m₁ m₂, readInto (Buffer.zeros _) poison = some m₁ ∧
    parseRequest m₁ = some (m₂, .rejected .status501) ∧
      m₂.bytes = [0, slash] ++ List.replicate 497 120 ++ [newline, 0] := by
  have hd : ((readInto (Buffer.zeros _) poison).bind parseRequest).map (fun r => (r.1.bytes, r.2)) =
      some ([0, slash] ++ List.replicate 497 120 ++ [newline, 0], .rejected .status501) := by
    decide +kernel
  obtain ⟨⟨m₂, request⟩, hb, he⟩ := Option.map_eq_some_iff.mp hd
  obtain ⟨m₁, h₁, h₂⟩ := Option.bind_eq_some_iff.mp hb
  obtain ⟨hbytes, rfl⟩ := Prod.mk.inj he
  exact ⟨m₁, m₂, h₁, h₂, hbytes⟩

theorem meets_of_head {sockFd : Int} {s : State} {h : History} {address : Nat}
    (hh : Heads (recorded (Allowed sockFd)) (mainStep sockFd) (State.start sockFd m) [] s h)
    (hn : s.clientFds.nodes = [⟨address, fd⟩]) (hne : fd ≠ sockFd) : Meets sockFd m s fd := by
  have hr : [fd] ⊆ s.clientFds.values := by simp [LinkedList.values, hn]
  have hs : sockFd ∉ [fd] := by simpa using Ne.symm hne
  have hfirst : s.clientFds.first = some address := by simp [LinkedList.first, hn]
  have hnode : s.clientFds.nodeAt address = some ⟨address, fd⟩ := by simp [LinkedList.nodeAt, hn]
  have hwalk (h' : History) : Heads (recorded (Allowed sockFd)) (walkStep [fd])
      (s, s.clientFds.first) h' (s, some address) h' := by
    rw [hfirst]
    exact .start
  exact .walk hh (ready_runs hr hs) (hwalk _) hnode rfl List.mem_cons_self

/-- Surroundings without any files. -/
def noFiles : Surroundings :=
  ⟨fun _ => .error .enoent, fun _ => .error .enoent, fun _ _ => [], fun _ => false,
    fun _ bytes => bytes.length⟩

def badRequest : Bytes := errorText Status.status400.msg ++ [0]

theorem response_badRequest {s : State} (hb : b.length ≤ maxRequestLineLen)
    (hs : stringRequest ((delivered s.requestLine b).takeWhile (· ≠ 0)) =
      some (.rejected .status400)) :
    (.returned (), ⟨[badRequest], 1, 0⟩) ∈ response surroundings s fd b := by
  obtain ⟨m, hm, _⟩ : ∃ m, readInto s.requestLine b = some m ∧ _ := readInto_eq hb
  obtain ⟨⟨m', request⟩, hp, rfl⟩ := Option.map_eq_some_iff.mp ((parse_readInto hb hm).trans hs)
  simp only [response, Set.mem_ofPred_eq, serveRead_eq fd hm, handleRequest_rejected fd hp,
    respond_eq, Program.pure_eq, Program.done_bind, Program.call_bind]
  exact runs_call rfl (runs_call rfl runs_done)

theorem text_ne {status : Status} (h : status ≠ .status400) :
    errorText status.msg ++ [0] ≠ badRequest := by
  cases status with
  | status400 => exact absurd rfl h
  | status501 | status404 | status500 => decide

theorem response_other {s : State} (hb : b.length ≤ maxRequestLineLen)
    (hs : stringRequest ((delivered s.requestLine b).takeWhile (· ≠ 0)) ≠
      some (.rejected .status400)) {r : Outcome Exit Unit × Exchange}
    (hr : r ∈ response noFiles s fd b) : r.2.sent ≠ [badRequest] := by
  obtain ⟨m, hm, _⟩ : ∃ m, readInto s.requestLine b = some m ∧ _ := readInto_eq hb
  rw [← parse_readInto hb hm] at hs
  have hg : Guarantees (handled noFiles.answer) (do let _ ← serveRead s fd (some b)) .start
      (fun _ w => w.sent ≠ [badRequest]) := by
    simp only [serveRead_eq fd hm, handleRequest, access, Program.pure_eq]
    cases hp : parseRequest m with
    | none => simp [Exchange.start]
    | some p =>
      obtain ⟨m', request⟩ := p
      cases request with
      | rejected status =>
        have hne : status ≠ .status400 := by
          rintro rfl
          exact hs (by rw [hp]; rfl)
        simp [-guarantees_call, guarantees_handled_call, respond_eq, Surroundings.answer,
          Exchange.start, text_ne hne]
      | accepted uri =>
        have hne : errorText Status.status404.msg ++ [0] ≠ badRequest := text_ne (by decide)
        simp [-guarantees_call, guarantees_handled_call, stat, respond_eq, library,
          Surroundings.answer, Exchange.start, noFiles, hne]
  exact hg _ _ hr

/-- After the poisoned request a newline ends whatever follows. -/
theorem delivered_poisoned (h₁ : 1 ≤ b.length) (hb : b.length < maxRequestLineLen)
    (hm : m.bytes = [0, slash] ++ List.replicate 497 120 ++ [newline, 0]) :
    ∃ t, delivered m b = b ++ t ++ [newline] ∧ 0 ∉ t := by
  have ht : m.bytes.take maxRequestLineLen =
      0 :: (slash :: List.replicate 497 120 ++ [newline]) := by
    rw [hm]
    decide +kernel
  obtain ⟨k, hk⟩ : ∃ k, b.length = k + 1 := ⟨b.length - 1, by omega⟩
  have hl : k ≤ (slash :: List.replicate 497 (120 : UInt8)).length := by
    rw [List.length_cons, List.length_replicate]
    simp only [maxRequestLineLen] at hb
    omega
  refine ⟨(slash :: List.replicate 497 120).drop k, ?_, fun h => ?_⟩
  · rw [delivered, ht, hk, List.drop_succ_cons, List.drop_append_of_le_length hl,
      List.append_assoc]
  · obtain h | h := List.mem_cons.mp (List.mem_of_mem_drop h)
    · exact absurd h (by decide)
    · exact absurd (List.eq_of_mem_replicate h) (by decide)

/-- A request without an end is answered differently after the poisoned one. -/
theorem not_noInterference (h₁ : 1 ≤ b.length) (hlen : b.length < maxRequestLineLen)
    (hnewline : newline ∉ b) (hzero : 0 ∉ b) : ¬ NoInterference b := by
  intro h
  obtain ⟨m₁, m₂, hread, hparse, hm₂⟩ := parse_poison
  have hne : some poison ≠ some [] := by decide +kernel
  obtain ⟨h', hthird⟩ : ∃ h, Heads (recorded (Allowed 3)) (mainStep 3)
      (State.start 3 (Buffer.zeros _)) []
      (connect (disconnect (connect (State.start 3 (Buffer.zeros _)) 5) 5 m₂) 5) h :=
    third_head (by decide) (by decide) hne poison_length hread hparse
  have hmeets : Meets 3 (Buffer.zeros _) (connect (State.start 3 (Buffer.zeros _)) 5) 5 :=
    meets_of_head (first_head _ (.inr (by decide)) (by decide)) rfl (by decide)
  have hsame := h noFiles _ 3 3 _ _ 5 5 hmeets (meets_of_head hthird rfl (by decide))
  -- On a fresh array the bytes end before a newline is found.
  have hempty : stringRequest ((delivered (Buffer.zeros _) b).takeWhile (· ≠ 0)) =
      some (.rejected .status400) := by
    have hzeros : delivered (Buffer.zeros _) b =
        b ++ List.replicate (maxRequestLineLen - b.length) 0 := by
      simp [delivered, Buffer.zeros]
    rw [hzeros, takeWhile_padded, stringRequest_eq_badRequest]
    exact fun hm => hnewline ((List.takeWhile_prefix _).subset hm)
  -- Behind the poisoned request the search runs on to the old newline.
  have hpoisoned : stringRequest ((delivered m₂ b).takeWhile (· ≠ 0)) ≠
      some (.rejected .status400) := by
    obtain ⟨t, ht, hzero'⟩ := delivered_poisoned h₁ hlen hm₂
    have hp : 0 ∉ b ++ t ++ [newline] := by
      simp [hzero, hzero', newline]
    rw [ht, takeWhile_whole hp, ne_eq, stringRequest_eq_badRequest]
    simp
  have hmem : (_, ⟨[badRequest], 1, 0⟩) ∈
      response noFiles (connect (State.start 3 (Buffer.zeros _)) 5) 5 b :=
    response_badRequest hlen.le hempty
  rw [hsame] at hmem
  exact response_other hlen.le hpoisoned hmem rfl

theorem noInterference_of_end (hb : b.length ≤ maxRequestLineLen)
    (h : newline ∈ b ∨ 0 ∈ b ∨ b.length = maxRequestLineLen) : NoInterference b := by
  intro surroundings requestLine sockFd sockFd' s s' clientFd clientFd' _ _
  have hs : stringRequest ((delivered s.requestLine b).takeWhile (· ≠ 0)) =
      stringRequest ((delivered s'.requestLine b).takeWhile (· ≠ 0)) := by
    rw [delivered_string h, delivered_string h]
  exact Set.Subset.antisymm (response_subset hb hs) (response_subset hb hs.symm)

/-- Between requests nothing flows exactly when the bytes hold a newline or a
zero, or fill the array. -/
theorem noInterference_iff (h₁ : 1 ≤ b.length) (hb : b.length ≤ maxRequestLineLen) :
    NoInterference b ↔ newline ∈ b ∨ 0 ∈ b ∨ b.length = maxRequestLineLen := by
  refine ⟨fun h => ?_, noInterference_of_end hb⟩
  by_contra hn
  obtain ⟨hnewline, hn⟩ := not_or.mp hn
  obtain ⟨hzero, hlen⟩ := not_or.mp hn
  exact not_noInterference h₁ (by omega) hnewline hzero h

theorem noInterference_iff_letter : NoInterference (ascii "a") ↔
    newline ∈ ascii "a" ∨ 0 ∈ ascii "a" ∨ (ascii "a").length = maxRequestLineLen :=
  noInterference_iff (by decide) (by decide)

theorem letter_interferes : ¬ ∀ b : Bytes, 1 ≤ b.length → b.length ≤ maxRequestLineLen →
    NoInterference b := by
  intro h
  have ha : NoInterference (ascii "a") := h _ (by decide) (by decide)
  exact not_noInterference (by decide) (by decide) (by decide) (by decide) ha

end Ti3.Http.Interference
