import Ti3.Http.RequestLine
import Ti3.Http.Response
import Ti3.Library.Rules

namespace Ti3.Http.Conversations

open Library.CString Library.CMemory Library.Interaction Library.Linked Library.Rules
open Server RequestLine Response

-- The texts are known by their equations; evaluating them on the way is slow.
attribute [local irreducible] message header

/-- What has been said since the last `read`, if that has been for a request: the client and what
was read from it, what `stat` has answered for which path, what `fread` has delivered, and what
has been sent. It is noted for good whether a call has been for another client or another path. -/
structure Talk where
  client : Option Int
  request : Bytes
  asked : Option (Bytes × Except Errno Int)
  freads : List Bytes
  sent : List Bytes
  astray : Bool

def Talk.start : Talk := ⟨none, [], none, [], [], false⟩

/-- Nobody is being answered. -/
def Talk.leave (v : Talk) : Talk := { Talk.start with astray := v.astray }

def Talk.note (v : Talk) : (c : Call) → Answer c → Talk
  | .pselect _ _, _ | .accept _, _ | .staleNext _, _ => v.leave
  | .read fd _, bytes =>
    if bytes = some [] then v.leave
    else { v.leave with client := some fd, request := bytes.getD [] }
  | .stat path, found => { v with asked := some (path, found) }
  | .fopen path, _ => { v with astray := v.astray || decide (v.asked.map Prod.fst ≠ some path) }
  | .fread _ _, piece => { v with freads := v.freads ++ [piece] }
  | .send fd _ bytes, _ =>
    { v with sent := v.sent ++ [bytes], astray := v.astray || decide (v.client ≠ some fd) }
  | .close fd, _ =>
    { v with astray := v.astray || decide (v.client ≠ none ∧ v.client ≠ some fd) }
  | .ferror _, _ | .fclose _, _ => v

/-- No more is read than what is asked for. All other answers are possible at any time. -/
def Possible : (c : Call) → Answer c → Prop
  | .read _ count, bytes => (bytes.getD []).length ≤ count
  | _, _ => True

def talking : Environment Call Answer Talk := fun v c a v' => Possible c a ∧ v' = v.note c a

/-- The error that is due for the string in the buffer, after `stat` has answered. -/
inductive Due (s : Bytes) : Option (Bytes × Except Errno Int) → Status → Prop
  | rejected {status} : stringRequest s = some (.rejected status) → Due s none status
  | missing {path} : stringRequest s = some (.accepted path) →
      Due s (some (path, .error .enoent)) .status404
  | failed {path e} : stringRequest s = some (.accepted path) → e ≠ .enoent →
      Due s (some (path, .error e)) .status500
  | untyped {path size} : stringRequest s = some (.accepted path) →
      guessMimeType path = some none → Due s (some (path, .ok size)) .status400

def text (status : Status) : Bytes := errorText status.msg ++ [0]

/-- The header that goes before the file, with the size that `stat` has answered. -/
def Offered (s : Bytes) (asked : Option (Bytes × Except Errno Int)) (head : Bytes) : Prop :=
  ∃ path size mimeType, stringRequest s = some (.accepted path) ∧ asked = some (path, .ok size) ∧
    guessMimeType path = some (some mimeType) ∧ header mimeType size = some head

/-- What may have been sent: nothing, an error, or the header and what has been read of the file,
with an error behind it if it could not be read. -/
inductive Spoken (s : Bytes) (asked : Option (Bytes × Except Errno Int)) (freads : List Bytes) :
    List Bytes → Prop
  | silent : Spoken s asked freads []
  | error {status} : Due s asked status → Spoken s asked freads [text status]
  | file {head pieces} : Offered s asked head → pieces = freads ∨ pieces = freads.dropLast →
      Spoken s asked freads (head :: pieces)
  | broken {head pieces status} : Offered s asked head →
      pieces = freads ∨ pieces = freads.dropLast → status = .status404 ∨ status = .status500 →
        Spoken s asked freads (head :: pieces ++ [text status])

/-- Only the client that has been read from last is answered, and what is sent to it is a part of
the answer to the string that starts with what has been read. -/
structure Right (v : Talk) : Prop where
  straight : v.astray = false
  silent : v.client = none → v.sent = []
  spoken : v.client ≠ none → ∃ s, v.request.takeWhile (· ≠ 0) <+: s ∧
    Spoken s v.asked v.freads v.sent

/-- While a client is being answered. -/
structure Attends (fd : Int) (s : Bytes) (asked : Option (Bytes × Except Errno Int))
    (freads sent : List Bytes) (v : Talk) : Prop where
  client : v.client = some fd
  request : v.request.takeWhile (· ≠ 0) <+: s
  asked : v.asked = asked
  freads : v.freads = freads
  sent : v.sent = sent
  straight : v.astray = false

variable {fd : Int} {s : Bytes} {asked : Option (Bytes × Except Errno Int)}
variable {freads sent : List Bytes} {v : Talk} {status : Status}

theorem Attends.right (h : Attends fd s asked freads sent v) (hs : Spoken s asked freads sent) :
    Right v := by
  refine ⟨h.straight, fun hnone => ?_, fun _ => ⟨s, h.request, ?_⟩⟩
  · rw [h.client] at hnone
    cases hnone
  · rw [h.asked, h.freads, h.sent]
    exact hs

theorem right_leave (h : v.astray = false) : Right v.leave :=
  ⟨h, fun _ => rfl, fun hne => absurd rfl hne⟩

section rules

variable {α β : Type} {Q : α → Talk → Prop} {R : β → Talk → Prop}

/-- All is right on the way, and `Q` holds of results. -/
abbrev Talks (p : Process α) (v : Talk) (Q : α → Talk → Prop) : Prop :=
  Guarantees talking p v (follow (fun _ : Outcome Exit Unit => Right) Q)

theorem talks_done {a : α} (h : Right v) (hq : Q a v) : Talks (.done a) v Q :=
  guarantees_done.mpr ⟨h, hq⟩

theorem talks_halt {e : Exit} (h : Right v) : Talks (.halt e : Process α) v Q :=
  guarantees_halt.mpr ⟨h, h⟩

theorem talks_call {c : Call} {k : Answer c → Process α} (h : Right v)
    (hk : ∀ a, Possible c a → Talks (k a) (v.note c a) Q) : Talks (.call c k) v Q := by
  refine guarantees_call.mpr ⟨h, ?_⟩
  rintro a _ ⟨ha, rfl⟩
  exact hk a ha

theorem talks_mono {p : Process α} {Q' : α → Talk → Prop} (h : Talks p v Q)
    (hq : ∀ a v, Q a v → Q' a v) : Talks p v Q' := follow_mono h hq

theorem talks_bind {p : Process α} {f : α → Process β}
    (h : Talks p v (fun a v => Talks (f a) v R)) : Talks (p >>= f) v R := follow_bind h

theorem talks_access {x : Option α} (h : Right v) (hx : ∀ a, x = some a → Q a v) :
    Talks (access x) v Q := by
  cases x with
  | none => exact talks_halt h
  | some a => exact talks_done h (hx a rfl)

theorem talks_loop {body : β → Process (β ⊕ α)} {b : β} (J : β → Talk → Prop) (h : J b v)
    (hb : ∀ b v, J b v → Talks (body b) v (Sum.elim J Q)) (hq : ∀ a v, Q a v → Right v) :
    Talks (.loop body b .done) v Q := by
  refine guarantees_rounds J h (fun b v hv => ?_) (fun a v hv => talks_done (hq a v hv) hv)
  rw [follow_follow]
  exact hb b v hv

end rules

theorem attends_send (h : Attends fd s asked freads sent v) (source : Source) (bytes : Bytes)
    (a : Answer (.send fd source bytes)) :
    Attends fd s asked freads (sent ++ [bytes]) (v.note (.send fd source bytes) a) := by
  refine ⟨h.client, h.request, h.asked, h.freads, congrArg (· ++ [bytes]) h.sent, ?_⟩
  simp [Talk.note, h.straight, h.client]

theorem attends_close (h : Attends fd s asked freads sent v) (a : Answer (.close fd)) :
    Attends fd s asked freads sent (v.note (.close fd) a) := by
  refine ⟨h.client, h.request, h.asked, h.freads, h.sent, ?_⟩
  simp [Talk.note, h.straight, h.client]

theorem respond_talks (h : Attends fd s asked freads sent v) (hs : Spoken s asked freads sent)
    (hs' : Spoken s asked freads (sent ++ [text status])) :
    Talks (respond status fd) v (fun _ => Attends fd s asked freads (sent ++ [text status])) := by
  rw [respond_eq]
  refine talks_call (h.right hs) (fun a _ => ?_)
  have hsent := attends_send h .msg (text status) a
  refine talks_call (hsent.right hs') (fun a _ => ?_)
  have hclosed := attends_close hsent a
  exact talks_done (hclosed.right hs') hclosed

/-- What has become of a request when its client has not been answered yet. -/
structure Accepted (fd : Int) (s : Bytes) (served : Served) (v : Talk) : Prop where
  attends : Attends fd s (some (served.uri, .ok served.size)) [] [] v
  request : stringRequest s = some (.accepted served.uri)
  typed : guessMimeType served.uri = some (some served.mimeType)

def Handled (fd : Int) (s : Bytes) : Option Served → Talk → Prop
  | none => Right
  | some served => Accepted fd s served

theorem reject_talks (m : RequestLine) (h : Attends fd s asked [] [] v) (hd : Due s asked status) :
    Talks (do respond status fd; .done (m, (none : Option Served))) v
      (fun r => Handled fd s r.2) := by
  refine talks_bind (talks_mono (respond_talks h .silent (.error hd)) (fun _ v hv => ?_))
  exact talks_done (hv.right (.error hd)) (hv.right (.error hd))

theorem handleRequest_talks {m : RequestLine} (h : Attends fd s none [] [] v)
    (hm : (parseRequest m).map Prod.snd = stringRequest s) :
    Talks (handleRequest fd m) v (fun r => Handled fd s r.2) := by
  refine talks_bind (talks_access (h.right .silent) ?_)
  rintro ⟨m', request⟩ hparse
  have hs : stringRequest s = some request := by
    rw [← hm, hparse]
    rfl
  cases request with
  | rejected status => exact reject_talks m' h (.rejected hs)
  | accepted uri =>
    simp only [stat, library, ask_bind]
    refine talks_call (h.right .silent) (fun found _ => ?_)
    have hasked : Attends fd s (some (uri, found)) [] [] (v.note (.stat uri) found) :=
      ⟨h.client, h.request, rfl, h.freads, h.sent, h.straight⟩
    cases found with
    | error e =>
      cases e with
      | enoent => exact reject_talks m' hasked (.missing hs)
      | eintr => exact reject_talks m' hasked (.failed hs (by decide))
      | other => exact reject_talks m' hasked (.failed hs (by decide))
    | ok size =>
      refine talks_bind (talks_access (hasked.right .silent) (fun found hguess => ?_))
      cases found with
      | none => exact reject_talks m' hasked (.untyped hs hguess)
      | some mimeType => exact talks_done (hasked.right .silent) ⟨hasked, hs, hguess⟩

section sendFile

variable {head : Bytes} {infile : Nat}

/-- All pieces that have been read have been sent. -/
def Copying (fd : Int) (s : Bytes) (asked : Option (Bytes × Except Errno Int)) (head : Bytes)
    (v : Talk) : Prop :=
  ∃ pieces, Attends fd s asked pieces (head :: pieces) v

/-- The last `fread` has delivered nothing. -/
def Copied (fd : Int) (s : Bytes) (asked : Option (Bytes × Except Errno Int)) (head : Bytes)
    (v : Talk) : Prop :=
  ∃ pieces, Attends fd s asked (pieces ++ [[]]) (head :: pieces) v

theorem copying_right (ho : Offered s asked head) (h : Copying fd s asked head v) : Right v := by
  obtain ⟨pieces, h⟩ := h
  exact h.right (.file ho (.inl rfl))

theorem spoken_read (ho : Offered s asked head) (pieces : List Bytes) (piece : Bytes) :
    Spoken s asked (pieces ++ [piece]) (head :: pieces) :=
  .file ho (.inr List.dropLast_concat.symm)

theorem transferStep_talks (ho : Offered s asked head) (h : Copying fd s asked head v) (u : Unit) :
    Talks (transferStep fd infile u) v
      (Sum.elim (fun _ => Copying fd s asked head) (fun _ => Copied fd s asked head)) := by
  obtain ⟨pieces, h⟩ := h
  simp only [transferStep, fread, send, library, ask_bind]
  refine talks_call (h.right (.file ho (.inl rfl))) (fun buf _ => ?_)
  have hread : Attends fd s asked (pieces ++ [buf]) (head :: pieces)
      (v.note (.fread infile bufsize) buf) :=
    ⟨h.client, h.request, h.asked, congrArg (· ++ [buf]) h.freads, h.sent, h.straight⟩
  split
  · next hempty =>
    subst hempty
    exact talks_done (hread.right (spoken_read ho pieces [])) ⟨pieces, hread⟩
  · refine talks_call (hread.right (spoken_read ho pieces buf)) (fun a _ => ?_)
    have hsent : Copying fd s asked head _ := ⟨pieces ++ [buf], attends_send hread .buf buf a⟩
    exact talks_done (copying_right ho hsent) hsent

/-- An error behind the header, and what has been sent of the file. -/
theorem respondIf_talks (failed : Bool) {pieces : List Bytes}
    (h : Attends fd s asked freads (head :: pieces) v) (ho : Offered s asked head)
    (hp : pieces = freads ∨ pieces = freads.dropLast) :
    Talks (respondIf failed .status500 fd) v (fun _ v => ∃ sent,
      Attends fd s asked freads sent v ∧ Spoken s asked freads sent) := by
  have hs : Spoken s asked freads (head :: pieces) := .file ho hp
  cases failed with
  | false => exact talks_done (h.right hs) ⟨_, h, hs⟩
  | true =>
    have hs' : Spoken s asked freads (head :: pieces ++ [text .status500]) :=
      .broken ho hp (.inr rfl)
    exact talks_mono (respond_talks h hs hs') (fun _ v hv => ⟨_, hv, hs'⟩)

theorem copy_talks (ho : Offered s asked head) (h : Attends fd s asked [] [head] v) :
    Talks (do
      .loop (transferStep fd infile) () .done
      respondIf (← ferror infile) .status500 fd
      let _ ← fclose infile
      let _ ← close fd) v (fun _ => Right) := by
  have hright {pieces : List Bytes} {v : Talk}
      (h : Attends fd s asked (pieces ++ [[]]) (head :: pieces) v) : Right v :=
    h.right (spoken_read ho pieces [])
  refine talks_bind (talks_mono (talks_loop (fun _ => Copying fd s asked head) ⟨[], h⟩
    (fun u v hv => transferStep_talks ho hv u) ?_) ?_)
  · rintro - v ⟨pieces, hv⟩
    exact hright hv
  · rintro - v ⟨pieces, hv⟩
    simp only [ferror, fclose, close, library, ask_bind]
    refine talks_call (hright hv) (fun failed _ => ?_)
    refine talks_bind (talks_mono (respondIf_talks failed hv ho
      (.inr List.dropLast_concat.symm)) ?_)
    rintro - v ⟨sent, hv, hs⟩
    refine talks_call (hv.right hs) (fun _ _ => ?_)
    refine talks_call (hv.right hs) (fun a _ => ?_)
    have hclosed := attends_close hv a
    exact talks_done (hclosed.right hs) (hclosed.right hs)

theorem sendFile_talks {served : Served} (h : Accepted fd s served v) :
    Talks (sendFile fd served) v (fun _ => Right) := by
  have hattends := h.attends
  refine talks_bind (talks_access (hattends.right .silent) (fun head hhead => ?_))
  have ho : Offered s (some (served.uri, .ok served.size)) head :=
    ⟨served.uri, served.size, served.mimeType, h.request, rfl, h.typed, hhead⟩
  simp only [send, fopen, library, ask_bind]
  refine talks_call (hattends.right .silent) (fun a _ => ?_)
  have hsent := attends_send hattends .header head a
  have hs : Spoken s (some (served.uri, .ok served.size)) [] [head] := .file ho (.inl rfl)
  split
  · exact talks_done (hsent.right hs) (hsent.right hs)
  · refine talks_call (hsent.right hs) (fun found _ => ?_)
    have hopened : Attends fd s (some (served.uri, .ok served.size)) [] [head]
        ((v.note (.send fd .header head) a).note (.fopen served.uri) found) := by
      refine ⟨hsent.client, hsent.request, hsent.asked, hsent.freads, hsent.sent, ?_⟩
      simp [Talk.note, hattends.straight, hattends.client, hattends.asked]
    have hfails (status : Status) (hstatus : status = .status404 ∨ status = .status500) {v : Talk}
        (hv : Attends fd s (some (served.uri, .ok served.size)) [] [head] v) :
        Talks (respond status fd) v (fun _ => Right) := by
      have hs' : Spoken s (some (served.uri, .ok served.size)) [] [head, text status] :=
        .broken ho (.inl rfl) hstatus
      exact talks_mono (respond_talks hv hs hs') (fun _ v hv => hv.right hs')
    cases found with
    | error e =>
      cases e with
      | enoent => exact hfails .status404 (.inl rfl) hopened
      | eintr | other => exact hfails .status500 (.inr rfl) hopened
    | ok infile => exact copy_talks ho hopened

end sendFile

theorem closeIf_talks (failed : Bool) (h : Attends fd s none [] [] v) :
    Talks (closeIf failed fd) v (fun _ => Attends fd s none [] []) := by
  cases failed with
  | false => exact talks_done (h.right .silent) h
  | true =>
    simp only [closeIf, close, library, ask_bind, if_true]
    refine talks_call (h.right .silent) (fun a _ => ?_)
    have hclosed := attends_close h a
    exact talks_done (hclosed.right .silent) hclosed

theorem takeWhile_delivered (old : RequestLine) (b : Bytes) :
    b.takeWhile (· ≠ 0) <+: (delivered old b).takeWhile (· ≠ 0) := by
  rw [delivered, List.takeWhile_append]
  split
  · exact (List.takeWhile_prefix _).trans (List.prefix_append _ _)
  · exact List.prefix_rfl

/-- The array keeps what has been read of the request in front. -/
theorem serveRead_talks {state : State} {bytes : Option Bytes}
    (hb : (bytes.getD []).length ≤ maxRequestLineLen) (hclient : v.client = some fd)
    (hrequest : v.request = bytes.getD []) (hasked : v.asked = none) (hfreads : v.freads = [])
    (hsent : v.sent = []) (hstraight : v.astray = false) :
    Talks (serveRead state fd bytes) v (fun _ => Right) := by
  have h : Attends fd ((delivered state.requestLine (bytes.getD [])).takeWhile (· ≠ 0)) none [] []
      v := ⟨hclient, hrequest ▸ takeWhile_delivered _ _, hasked, hfreads, hsent, hstraight⟩
  refine talks_bind (talks_mono (closeIf_talks _ h) (fun _ v h => ?_))
  refine talks_bind (talks_access (h.right .silent) (fun m hm => ?_))
  refine talks_bind (talks_mono (handleRequest_talks h (parse_readInto hb hm)) ?_)
  rintro ⟨m', served⟩ v hv
  cases served with
  | none => exact talks_done hv hv
  | some served =>
    exact talks_bind (talks_mono (sendFile_talks hv) (fun _ v hv => talks_done hv hv))

theorem serveClient_talks (readfds : List Int) (state : State) (clientFd : Int) (hv : Right v) :
    Talks (serveClient readfds state clientFd) v (fun _ => Right) := by
  rw [serveClient]
  split
  · simp only [Server.read, library, ask_bind]
    refine talks_call hv (fun bytes hb => ?_)
    split
    · exact talks_done (right_leave hv.straight) (right_leave hv.straight)
    · next hne =>
      have hnote : v.note (.read clientFd maxRequestLineLen) bytes =
          { v.leave with client := some clientFd, request := bytes.getD [] } := if_neg hne
      rw [hnote]
      exact serveRead_talks hb rfl rfl rfl rfl rfl hv.straight
  · exact talks_done hv hv

theorem walkStep_talks (readfds : List Int) (x : State × Option Nat) (hv : Right v) :
    Talks (walkStep readfds x) v (fun _ => Right) := by
  obtain ⟨state, cur⟩ := x
  cases cur with
  | none => exact talks_done hv hv
  | some curClient =>
    simp only [walkStep]
    cases state.clientFds.nodeAt curClient with
    | none => exact talks_halt hv
    | some node =>
      refine talks_bind (talks_mono (serveClient_talks readfds state node.data hv) ?_)
      intro state v hv
      refine talks_bind ?_
      rw [slistNext]
      split
      · exact talks_done hv (talks_done hv hv)
      · refine talks_call hv (fun _ _ => ?_)
        have hleave := right_leave hv.straight
        exact talks_done hleave (talks_done hleave hleave)

theorem note_close (hclient : v.client = none) (fd : Int) (a : Answer (.close fd)) :
    v.note (.close fd) a = v := by
  obtain ⟨client, request, asked, freads, sent, astray⟩ := v
  obtain rfl : client = none := hclient
  simp [Talk.note]

/-- Nobody is answered while all clients are closed. -/
theorem closeAll_talks (fds : List Int) (proper : Bool) (hv : Right v) (hclient : v.client = none) :
    Talks (closeAll fds proper) v (fun _ v => Right v ∧ v.client = none) := by
  induction fds generalizing v proper with
  | nil => exact talks_done hv ⟨hv, hclient⟩
  | cons fd fds ih =>
    simp only [closeAll, close, library, ask_bind]
    refine talks_call hv (fun a _ => ?_)
    rw [note_close hclient]
    exact ih _ hv hclient

theorem shutDown_talks {α : Type} {Q : α → Talk → Prop} (sockFd : Int)
    (clientFds : LinkedList Int) (hv : Right v) (hclient : v.client = none) :
    Talks (shutDown sockFd clientFds : Process α) v Q := by
  refine talks_bind (talks_mono (closeAll_talks _ _ hv hclient) ?_)
  rintro proper v ⟨hv, hclient⟩
  simp only [close, library, ask_bind]
  refine talks_call hv (fun a _ => ?_)
  rw [note_close hclient]
  split <;> exact talks_halt hv

theorem mainStep_talks (sockFd : Int) (state : State) (hv : Right v) :
    Talks (mainStep sockFd state) v (Sum.elim (fun _ => Right) (fun _ => Right)) := by
  have hleave := right_leave hv.straight
  have hwalk (readfds : List Int) (state : State) {v : Talk} (hv : Right v) :
      Talks (.loop (walkStep readfds) (state, state.clientFds.first) (fun s => .done (.inl s)) :
        Process (State ⊕ Unit)) v (Sum.elim (fun _ => Right) (fun _ => Right)) := by
    refine talks_bind (p := .loop (walkStep readfds) (state, state.clientFds.first) .done)
      (talks_mono (talks_loop (Q := fun _ => Right) (fun _ => Right) hv
        (fun x v hv => talks_mono (walkStep_talks readfds x hv) ?_) (fun _ _ h => h)) ?_)
    · rintro (x | s) v hv <;> exact hv
    · exact fun s v hv => talks_done hv hv
  refine talks_bind ?_
  simp only [awaitEvents, pselect, accept, library, ask_bind]
  refine talks_call hv (fun selected _ => ?_)
  split
  · exact talks_halt hleave
  · split
    · exact shutDown_talks sockFd state.clientFds hleave rfl
    · split
      · refine talks_call hleave (fun fd _ => ?_)
        have haccepted := right_leave hleave.straight
        exact talks_done haccepted (hwalk _ _ haccepted)
      · exact talks_done hleave (hwalk _ _ hleave)

/-- In every run of the server, whatever is answered and at every moment, nothing has been sent
but to the client that has been read from last, and that has been sent a part of what is due. -/
theorem serve_converses (sockFd : Int) (requestLine : RequestLine) :
    Guarantees talking (serve sockFd requestLine) .start (fun _ => Right) := by
  have hstart : Right .start := ⟨rfl, fun _ => rfl, fun h => absurd rfl h⟩
  refine guarantees_mono (talks_loop (Q := fun _ => Right) (fun _ => Right) hstart
    (fun state v hv => mainStep_talks sockFd state hv) (fun _ _ h => h)) (fun o v h => ?_)
  cases o with
  | cut | halted | returned => exact h

end Ti3.Http.Conversations
