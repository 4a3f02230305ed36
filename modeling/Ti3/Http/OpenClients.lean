import Ti3.Http.Iterations

namespace Ti3.Http.OpenClients

open Library.CString Library.CMemory Library.Interaction Library.Linked Library.Rules
open Library.History Server Response Descriptors Invariants Iterations

/-- `accept` returns a descriptor, and the header of a file is sent as a whole. -/
def Reliable (_ : History) (c : Call) (a : Answer c) : Prop :=
  match c, a with
  | .accept _, fd => fd ≠ -1
  | .send _ .header bytes, sent => sent = bytes.length
  | _, _ => True

/-- What the complete runs among reliable calls end with. -/
abbrev Ensures {α : Type} (sockFd : Int) (p : Process α) (h : History)
    (Q : α → History → Prop) : Prop :=
  Keeps (fun h c a => Allowed sockFd h c a ∧ Reliable h c a) (fun _ _ _ => True) p h Q

/-- The list holds the open descriptors, each of them once. -/
def Accounted (clientFds : LinkedList Int) (h : History) : Prop :=
  clientFds.values.Nodup ∧ ∀ d, d ∈ clientFds.values ↔ StillOpen h d

variable {sockFd fd : Int} {h h' h'' : History} {clientFds : LinkedList Int}

theorem accounted_same (ha : Accounted clientFds h) (hs : Same h h') : Accounted clientFds h' :=
  ⟨ha.1, fun d => (ha.2 d).trans (hs d).symm⟩

theorem accounted_remove (ha : Accounted clientFds h) (hc : Closed fd h h') :
    Accounted (clientFds.remove fd) h' := by
  rw [Accounted, values_remove]
  refine ⟨ha.1.erase fd, fun d => ?_⟩
  rw [ha.1.mem_erase_iff, hc d, ha.2 d]

theorem accounted_prepend (ha : Accounted clientFds h) (hne : fd ≠ -1) (hn : ¬ StillOpen h fd) :
    Accounted (clientFds.prepend fd) (⟨.accept sockFd, fd⟩ :: h) := by
  refine ⟨List.nodup_cons.mpr ⟨fun hm => hn ((ha.2 fd).mp hm), ha.1⟩, fun d => ?_⟩
  rw [values_prepend, List.mem_cons, StillOpen, ha.2 d]
  constructor
  · rintro (rfl | hd)
    · exact .inl ⟨rfl, hne⟩
    · exact .inr hd
  · rintro (⟨rfl, _⟩ | hd)
    · exact .inl rfl
    · exact .inr hd

theorem serviceable (fd : Int) : Serviceable (fun _ _ _ => True) fd (fun _ => True) :=
  ⟨fun _ => trivial, fun _ => trivial, fun _ => trivial, fun _ _ => trivial⟩

theorem closed_last (hs : Same h h' ∨ Closed fd h h') (hc : Closed fd h' h'') :
    Closed fd h h'' := by
  obtain hs | hs := hs
  · exact closed_of_same hs hc
  · exact closed_of_closed hs hc

theorem respondIf_closed (failed : Bool) (status : Status) :
    Ensures sockFd (respondIf failed status fd) h (fun _ h' => Same h h' ∨ Closed fd h h') := by
  cases failed with
  | false => exact keeps_done (.inl (fun _ => Iff.rfl))
  | true => exact keeps_mono (respond_closed (serviceable fd) trivial status) (fun _ _ => .inr)

theorem sendFile_closed (served : Served) :
    Ensures sockFd (sendFile fd served) h (fun _ h' => Closed fd h h') := by
  rw [sendFile]
  cases header served.mimeType served.size with
  | none => exact keeps_halt
  | some header =>
    simp only [access, Program.pure_eq, Program.done_bind, send, fopen, library, ask_bind]
    refine keeps_call (fun sent hsent => ⟨trivial, ?_⟩)
    have hwhole : sent = header.length := hsent.2
    rw [if_neg (not_not.mpr hwhole)]
    refine keeps_call (fun found _ => ⟨trivial, ?_⟩)
    cases found with
    | error e => cases e <;> exact respond_closed (serviceable fd) trivial _
    | ok infile =>
      refine keeps_loop (fun _ h' => Same h h') (fun _ h' => Same h h') (fun _ => Iff.rfl)
        (transfer_same (serviceable fd) trivial infile) (fun _ h₁ hs => ?_)
      simp only [ferror, fclose, close, library, ask_bind]
      refine keeps_call (fun failed _ => ⟨trivial, ?_⟩)
      refine keeps_bind (respondIf_closed failed _) (fun _ h₂ hr => ?_)
      refine keeps_call (fun _ _ => ⟨trivial, keeps_call (fun _ _ => ⟨trivial, ?_⟩)⟩)
      exact keeps_done (closed_of_same hs (closed_last hr (fun _ => Iff.rfl)))

theorem closeIf_closed (failed : Bool) :
    Ensures sockFd (closeIf failed fd) h (fun _ h' => Same h h' ∨ Closed fd h h') := by
  cases failed with
  | false => exact keeps_done (.inl (fun _ => Iff.rfl))
  | true =>
    simp only [closeIf, close, library, if_true, ask_bind]
    exact keeps_call (fun _ _ => ⟨trivial, keeps_done (.inr (fun _ => Iff.rfl))⟩)

theorem serveRead_accounted {s : State} (ha : Accounted s.clientFds h) (bytes : Option Bytes) :
    Ensures sockFd (serveRead s fd bytes) h (fun s' h' => Accounted s'.clientFds h') := by
  rw [serveRead]
  refine keeps_bind (closeIf_closed bytes.isNone) (fun _ h₁ h₁s => ?_)
  simp only []
  cases readInto s.requestLine (bytes.getD []) with
  | none => exact keeps_halt
  | some requestLine =>
    simp only [access, Program.pure_eq, Program.done_bind]
    refine keeps_bind (handleRequest_closed (serviceable fd) trivial requestLine)
      (fun r h₂ hr => ?_)
    obtain ⟨requestLine, served⟩ := r
    cases served with
    | none => exact keeps_done (accounted_remove ha (closed_last h₁s hr))
    | some served =>
      refine keeps_bind (sendFile_closed served) (fun _ h₃ hc => ?_)
      exact keeps_done (accounted_remove ha (closed_last h₁s (closed_of_same hr hc)))

theorem accounted_preserved : Preserved (fun h c a => Allowed sockFd h c a ∧ Reliable h c a)
    (fun _ _ _ => True) sockFd (fun s => Accounted s.clientFds) where
  other hc ha := ⟨trivial, accounted_same ha (same_other (waits_other hc))⟩
  accept hfd _ ha := ⟨trivial, accounted_prepend ha hfd.2 (hfd.1.resolve_left hfd.2).2.2⟩
  idle _ ha := ⟨trivial, accounted_same ha (same_other rfl)⟩
  serve _ _ _ ha := ⟨trivial, serveRead_accounted (accounted_same ha (same_other rfl)) _⟩
  shutDown _ := shutDown_halts

/-- Among reliable calls the list holds the open client descriptors whenever
the main loop starts again. -/
theorem clientFds_eq_open {requestLine : RequestLine} {s : State}
    (hh : Heads (recorded (Allowed sockFd)) (mainStep sockFd) (State.start sockFd requestLine) []
      s h)
    (hr : Throughout Reliable h) (d : Int) : d ∈ s.clientFds.values ↔ StillOpen h d := by
  have hstart : Accounted (State.start sockFd requestLine).clientFds [] :=
    ⟨List.nodup_nil, fun d => ⟨nofun, nofun⟩⟩
  exact (heads_preserved accounted_preserved hstart (heads_restrict hh hr)).2 d

theorem clientFds_eq_open_first :
    (5 : Int) ∈ (connect (State.start 3 (Buffer.zeros _)) 5).clientFds.values ↔
      StillOpen (connecting 3 (State.start 3 (Buffer.zeros _)) 5 []) 5 := by
  refine clientFds_eq_open (first_head (Buffer.zeros _) (.inr (by decide)) (by decide)) ?_ 5
  exact throughout_cons.mpr ⟨(by decide : (5 : Int) ≠ -1),
    throughout_cons.mpr ⟨trivial, throughout_nil⟩⟩

theorem failed_accept_listed : ¬ ∀ (sockFd : Int) (requestLine : RequestLine) (s : State)
    (h : History), Heads (recorded (Allowed sockFd)) (mainStep sockFd)
      (State.start sockFd requestLine) [] s h → ∀ d, d ∈ s.clientFds.values ↔ StillOpen h d := by
  intro hall
  have ho := hall 3 (Buffer.zeros _) _ _ (first_head (Buffer.zeros _) (.inl rfl) (by decide)) (-1)
  obtain ⟨_, hne⟩ | ho := ho.mp List.mem_cons_self
  · exact hne rfl
  · exact ho

end Ti3.Http.OpenClients
