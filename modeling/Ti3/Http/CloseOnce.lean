import Ti3.Http.Iterations
import Ti3.Http.RequestLine

namespace Ti3.Http.CloseOnce

open Library.CString Library.CMemory Library.Interaction Library.Linked Library.Rules
open Library.History Server RequestLine Response Descriptors Invariants Iterations

/-- No read from a client or a file fails. -/
def Readable (_ : History) (c : Call) (a : Answer c) : Prop :=
  match c, a with
  | .read _ _, bytes => bytes ≠ none
  | .ferror _, failed => failed = false
  | _, _ => True

/-- Only open client descriptors are closed or sent to. -/
def InUse (sockFd : Int) (h : History) (c : Call) (_ : Answer c) : Prop :=
  match c with
  | .close fd => fd ≠ -1 → fd ≠ sockFd → StillOpen h fd
  | .send fd _ _ => fd ≠ -1 → StillOpen h fd
  | _ => True

abbrev Ensures {α : Type} (sockFd : Int) (p : Process α) (h : History)
    (Q : α → History → Prop) : Prop :=
  Keeps (fun h c a => Allowed sockFd h c a ∧ Readable h c a) (InUse sockFd) p h Q

def Others (fd : Int) (h h' : History) : Prop := ∀ d, d ≠ fd → (StillOpen h' d ↔ StillOpen h d)

/-- The descriptors in a list are open and none of them is there twice. -/
def Owned (fds : List Int) (h : History) : Prop :=
  ∀ d ∈ fds, d ≠ -1 → StillOpen h d ∧ fds.count d = 1

variable {sockFd fd : Int} {h h' h'' : History} {fds : List Int}

theorem others_of_same (hs : Same h h') : Others fd h h' := fun d _ => hs d

theorem others_of_closed (hc : Closed fd h h') : Others fd h h' := by
  intro d hd
  rw [hc d, and_iff_right hd]

theorem others_trans (hs : Others fd h h') (hs' : Others fd h' h'') : Others fd h h'' :=
  fun d hd => (hs' d hd).trans (hs d hd)

theorem owned_erase (ho : Owned fds h) (hs : Others fd h h') : Owned (fds.erase fd) h' := by
  intro d hd hne
  obtain ⟨hopen, hcount⟩ := ho d (List.mem_of_mem_erase hd) hne
  by_cases he : d = fd
  · subst he
    have hpos := List.count_pos_iff.mpr hd
    rw [List.count_erase_self, hcount] at hpos
    exact absurd hpos (by decide)
  · rw [hs d he, List.count_erase_of_ne he]
    exact ⟨hopen, hcount⟩

theorem owned_cons (ho : Owned fds h) (hn : fd = -1 ∨ ¬ StillOpen h fd) :
    Owned (fd :: fds) (⟨.accept sockFd, fd⟩ :: h) := by
  intro d hd hne
  by_cases he : d = fd
  · subst he
    have hmem : d ∉ fds := fun hm => (hn.resolve_left hne) (ho d hm hne).1
    rw [List.count_cons_self, List.count_eq_zero.mpr hmem]
    exact ⟨.inl ⟨rfl, hne⟩, rfl⟩
  · obtain ⟨hopen, hcount⟩ := ho d ((List.mem_cons.mp hd).resolve_left he) hne
    rw [List.count_cons_of_ne (Ne.symm he)]
    exact ⟨.inr hopen, hcount⟩

theorem inUse_other {c : Call} {a : Answer c} (hc : onClient c = false) : InUse sockFd h c a := by
  cases c with
  | send _ _ _ | close _ => cases hc
  | _ => trivial

theorem inUse_serviceable : Serviceable (InUse sockFd) fd (fun h => fd ≠ -1 → StillOpen h fd) where
  send hm hne := hm hne
  close hm hne _ := hm hne
  file hc := inUse_other hc
  same hs hm hne := (hs fd).mpr (hm hne)

theorem sendFile_others (served : Served) (hf : fd ≠ -1 → StillOpen h fd) :
    Ensures sockFd (sendFile fd served) h (fun _ h' => Others fd h h') := by
  rw [sendFile]
  cases header served.mimeType served.size with
  | none => exact keeps_halt
  | some header =>
    simp only [access, Program.pure_eq, Program.done_bind, send, fopen, library, ask_bind]
    refine keeps_call (fun sent _ => ⟨hf, ?_⟩)
    by_cases hs : sent = header.length
    · rw [if_neg (not_not.mpr hs)]
      refine keeps_call (fun found _ => ⟨trivial, ?_⟩)
      have hreject (status : Status) : Ensures sockFd (respond status fd)
          (⟨.fopen served.uri, found⟩ :: ⟨.send fd .header header, sent⟩ :: h)
          (fun _ h' => Others fd h h') := by
        have hf' : fd ≠ -1 → StillOpen (⟨.fopen served.uri, found⟩ ::
          ⟨.send fd .header header, sent⟩ :: h) fd := hf
        exact keeps_mono (respond_closed inUse_serviceable hf' status)
          (fun _ _ hc => others_of_closed (h := h) hc)
      cases found with
      | error e => cases e <;> exact hreject _
      | ok infile =>
        refine keeps_loop (fun _ => Same h) (fun _ => Same h) (fun _ => Iff.rfl)
          (transfer_same inUse_serviceable hf infile) (fun _ h₁ hsame => ?_)
        simp only [ferror, fclose, close, library, ask_bind]
        refine keeps_call (fun failed hfailed => ⟨trivial, ?_⟩)
        have hok : failed = false := hfailed.2
        subst hok
        refine keeps_call (fun _ _ => ⟨trivial, ?_⟩)
        refine keeps_call (fun _ _ => ⟨fun hne _ => (hsame fd).mpr (hf hne), ?_⟩)
        apply keeps_done
        exact others_of_closed (closed_of_same hsame (fun _ => Iff.rfl))
    · rw [if_pos hs]
      exact keeps_done (fun _ _ => Iff.rfl)

theorem serveRead_owned {s : State} (ho : Owned s.clientFds.values h)
    (hm : fd ∈ s.clientFds.values) (bytes : Bytes) :
    Ensures sockFd (serveRead s fd (some bytes)) h (fun s' => Owned s'.clientFds.values) := by
  have hf (hne : fd ≠ -1) : StillOpen h fd := (ho fd hm hne).1
  simp only [serveRead, closeIf, Option.isNone_some, Bool.false_eq_true, if_false,
    Program.pure_eq, Program.done_bind]
  cases readInto s.requestLine ((some bytes).getD []) with
  | none => exact keeps_halt
  | some requestLine =>
    simp only [access, Program.pure_eq, Program.done_bind]
    refine keeps_bind (handleRequest_closed inUse_serviceable hf requestLine) (fun r h₁ hr => ?_)
    obtain ⟨requestLine, served⟩ := r
    cases served with
    | none =>
      apply keeps_done
      rw [values_remove]
      exact owned_erase ho (others_of_closed hr)
    | some served =>
      have hf₁ (hne : fd ≠ -1) : StillOpen h₁ fd := (hr fd).mpr (hf hne)
      refine keeps_bind (sendFile_others served hf₁) (fun _ h₂ hs => ?_)
      apply keeps_done
      rw [values_remove]
      exact owned_erase ho (others_trans (others_of_same hr) hs)

theorem closeAll_ensures (proper : Bool) (ho : Owned fds h) :
    Ensures sockFd (closeAll fds proper) h (fun _ _ => True) := by
  induction fds generalizing h proper with
  | nil => exact keeps_done trivial
  | cons fd fds ih =>
    simp only [closeAll, close, library, ask_bind]
    refine keeps_call (fun a _ => ⟨fun hne _ => (ho fd List.mem_cons_self hne).1, ih _ ?_⟩)
    have he : Owned ((fd :: fds).erase fd) (⟨.close fd, a⟩ :: h) :=
      owned_erase ho (fun d hd => ⟨And.right, fun h' => ⟨hd, h'⟩⟩)
    rwa [List.erase_cons_head] at he

theorem shutDown_ensures {α : Type} {Q : α → History → Prop} {clientFds : LinkedList Int}
    (ho : Owned clientFds.values h) :
    Ensures sockFd (shutDown sockFd clientFds : Process α) h Q := by
  refine keeps_bind (closeAll_ensures true ho) (fun closed h₁ _ => ?_)
  simp only [close, library, ask_bind]
  refine keeps_call (fun a _ => ⟨fun _ hne => absurd rfl hne, ?_⟩)
  split
  · exact keeps_halt
  · exact keeps_halt

theorem owned_same (ho : Owned fds h) (hs : Same h h') : Owned fds h' :=
  fun d hd hne => ⟨(hs d).mpr (ho d hd hne).1, (ho d hd hne).2⟩

theorem owned_preserved : Preserved (fun h c a => Allowed sockFd h c a ∧ Readable h c a)
    (InUse sockFd) sockFd (fun s => Owned s.clientFds.values) where
  other hc ho := ⟨inUse_other (waits_other hc), owned_same ho (same_other (waits_other hc))⟩
  accept hfd _ ho := ⟨trivial, owned_cons ho (hfd.1.imp_right (·.2.2))⟩
  idle _ ho := ⟨trivial, owned_same ho (same_other rfl)⟩
  serve {_ _ _ bytes} hbytes _ hm ho := by
    obtain ⟨b, rfl⟩ := Option.ne_none_iff_exists'.mp hbytes.2
    exact ⟨trivial, serveRead_owned (owned_same ho (same_other rfl)) hm b⟩
  shutDown ho := shutDown_ensures ho

theorem serve_inUse (requestLine : RequestLine) :
    Ensures sockFd (serve sockFd requestLine) [] (fun _ _ => False) :=
  serve_preserved owned_preserved (fun _ hd => absurd hd List.not_mem_nil)

/-- `accept` has returned a descriptor. -/
def Accepted (h : History) (d : Int) : Prop := ∃ sockFd, ⟨.accept sockFd, d⟩ ∈ h

/-- Between two calls of `close` for a client, `accept` has returned its
descriptor again. -/
def ClosedOnce (h : History) : Prop :=
  ∀ (d : Int) (r r' : Int) (u v t : History), d ≠ -1 → Accepted t d →
    h = u ++ ⟨.close d, r⟩ :: (v ++ ⟨.close d, r'⟩ :: t) → Accepted v d

/-- Nothing is sent to a client after `close`, unless `accept` has returned its
descriptor again. -/
def SilentOnceClosed (h : History) : Prop :=
  ∀ (d : Int) (source : Source) (bytes : Bytes) (n r : Int) (u v t : History), d ≠ -1 →
    Accepted t d → h = u ++ ⟨.send d source bytes, n⟩ :: (v ++ ⟨.close d, r⟩ :: t) → Accepted v d

theorem accepted_of_open {d r : Int} {v t : History}
    (ho : StillOpen (v ++ ⟨.close d, r⟩ :: t) d) : Accepted v d := by
  have later {e : Event Call Answer} {v : History} (ha : Accepted v d) : Accepted (e :: v) d := by
    obtain ⟨s, hs⟩ := ha
    exact ⟨s, List.mem_cons_of_mem _ hs⟩
  induction v with
  | nil => exact absurd rfl ho.1
  | cons e v ih =>
    obtain ⟨c, a⟩ := e
    cases c with
    | accept s =>
      obtain ⟨rfl, _⟩ | ho := ho
      · exact ⟨s, List.mem_cons_self⟩
      · exact later (ih ho)
    | close fd => exact later (ih ho.2)
    | _ => exact later (ih ho)

theorem accepted_ne {d : Int} {t : History} (hallowed : Throughout (Allowed sockFd) h)
    (ht : t <:+ h) (hne : d ≠ -1) (ha : Accepted t d) : d ≠ sockFd := by
  obtain ⟨s, hs⟩ := ha
  obtain ⟨u, v, rfl⟩ := List.append_of_mem hs
  have hd := hallowed (.accept s) d v ((List.suffix_append _ _).trans ht)
  exact (hd.resolve_left hne).2.1

/-- As long as no read fails, no client is closed twice, and nothing is sent to
a closed one. -/
theorem serve_closedOnce {requestLine : RequestLine} {o : Outcome Exit Unit}
    (hr : Runs (recorded (Allowed sockFd)) (serve sockFd requestLine) [] o h)
    (hc : Throughout Readable h) : ClosedOnce h ∧ SilentOnceClosed h := by
  have hallowed : Throughout (Allowed sockFd) h := (keeps_allowed _ _ o h hr).1 throughout_nil
  have huse : Throughout (InUse sockFd) h :=
    (serve_inUse requestLine o h (runs_restrict _ hr hc)).1 throughout_nil
  constructor
  · rintro d r r' u v t hne ha rfl
    have ht : t <:+ u ++ ⟨.close d, r⟩ :: (v ++ ⟨.close d, r'⟩ :: t) :=
      ⟨u ++ ⟨.close d, r⟩ :: (v ++ [⟨.close d, r'⟩]), by simp⟩
    have ho := huse (.close d) r (v ++ ⟨.close d, r'⟩ :: t) (List.suffix_append _ _)
    exact accepted_of_open (ho hne (accepted_ne hallowed ht hne ha))
  · rintro d source bytes n r u v t hne ha rfl
    have ho := huse (.send d source bytes) n (v ++ ⟨.close d, r⟩ :: t) (List.suffix_append _ _)
    exact accepted_of_open (ho hne)

/-- A run in which the only client is answered with an error. -/
def answeredHistory (bytes : Option Bytes) : History :=
  ⟨.staleNext 0, (none : Option Nat)⟩ :: rejecting 5 bytes .status400
    (⟨.pselect 6 [3, 5], ready [5]⟩ :: connecting 3 (State.start 3 (Buffer.zeros _)) 5 [])

theorem rejected_request {m : RequestLine} {bytes : Bytes} {status : Status}
    (hl : bytes.length ≤ maxRequestLineLen)
    (hs : stringRequest ((delivered m bytes).takeWhile (· ≠ 0)) = some (.rejected status)) :
    ∃ m₁ m₂, readInto m bytes = some m₁ ∧ parseRequest m₁ = some (m₂, .rejected status) := by
  obtain ⟨m₁, h₁, _⟩ : ∃ m₁, readInto m bytes = some m₁ ∧ _ := readInto_eq hl
  have hp := (parse_readInto hl h₁).trans hs
  obtain ⟨⟨m₂, request⟩, h₂, rfl⟩ := Option.map_eq_some_iff.mp hp
  exact ⟨m₁, m₂, h₁, h₂⟩

theorem answered_runs {bytes : Option Bytes} (hb : bytes ≠ some [])
    (hl : (bytes.getD []).length ≤ maxRequestLineLen)
    (hs : stringRequest ((delivered (Buffer.zeros _) (bytes.getD [])).takeWhile (· ≠ 0)) =
      some (.rejected .status400)) :
    Runs (recorded (Allowed 3)) (serve 3 (Buffer.zeros _)) [] .cut (answeredHistory bytes) := by
  obtain ⟨m₁, m₂, h₁, h₂⟩ := rejected_request hl hs
  exact heads_runs (second_head (by decide) (by decide) hb hl h₁ h₂)

theorem serve_closedOnce_answered :
    ClosedOnce (answeredHistory (some [97])) ∧ SilentOnceClosed (answeredHistory (some [97])) := by
  apply serve_closedOnce (answered_runs (by decide) (by decide) (by decide +kernel))
  simp [answeredHistory, rejecting, responding, closingIf, connecting, throughout_cons,
    throughout_nil, Readable]

theorem failed_read_closes_twice : ¬ ∀ (sockFd : Int) (requestLine : RequestLine)
    (o : Outcome Exit Unit) (h : History),
    Runs (recorded (Allowed sockFd)) (serve sockFd requestLine) [] o h →
      ClosedOnce h ∧ SilentOnceClosed h := by
  intro hall
  have hr : Runs _ _ _ _ (answeredHistory none) :=
    answered_runs nofun (by decide) (by decide +kernel)
  have hm : (⟨.accept 3, (5 : Int)⟩ : Event Call Answer) ∈
      connecting 3 (State.start 3 (Buffer.zeros _)) 5 [] := List.mem_cons_self
  have ha : Accepted [_] 5 := (hall 3 _ .cut _ hr).1 5 0 0 [_] [_] _ (by decide)
    ⟨3, List.mem_cons_of_mem _ (List.mem_cons_of_mem _ hm)⟩ rfl
  obtain ⟨s, hs⟩ := ha
  cases List.mem_singleton.mp hs

end Ti3.Http.CloseOnce
