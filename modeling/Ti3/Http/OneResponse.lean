import Mathlib.Data.Nat.Find
import Ti3.Http.Interference

namespace Ti3.Http.OneResponse

open Library.CString Library.CMemory Library.Interaction Library.Rules Library.Determinism
open Server RequestLine Response Interference

-- The texts are known by their equations; evaluating them on the way is slow.
attribute [local irreducible] message header

/-- Lines without a newline, none of them empty. -/
def Lines (lines : List Bytes) : Prop := ∀ l ∈ lines, l ≠ [] ∧ newline ∉ l

instance (lines : List Bytes) : Decidable (Lines lines) :=
  inferInstanceAs (Decidable (∀ l ∈ lines, _))

def lengthFields (fields : List Bytes) : List Bytes :=
  fields.filter (fun l => ascii "Content-Length:" <+: l)

/-- One status line, header fields, an empty line, and as many bytes behind it
as the only length field says. -/
def IsResponse (s : Bytes) : Prop :=
  ∃ statusLine fields body, s = textLines (statusLine :: fields) ++ newline :: body ∧
    Lines (statusLine :: fields) ∧ ascii "HTTP/" <+: statusLine ∧
      lengthFields fields = [ascii "Content-Length: " ++ decimal body.length]

theorem textLines_cons_ne {l u v : Bytes} {lines : List Bytes} (hl : Lines (l :: lines)) :
    newline :: u ≠ textLines (l :: lines) ++ v := by
  intro he
  obtain ⟨hne, hn⟩ := hl l List.mem_cons_self
  obtain ⟨c, l, rfl⟩ := List.exists_cons_of_ne_nil hne
  exact hn ((List.cons.inj he).1 ▸ List.mem_cons_self)

theorem textLines_injective {lines lines' : List Bytes} {body body' : Bytes} (hl : Lines lines)
    (hl' : Lines lines')
    (h : textLines lines ++ newline :: body = textLines lines' ++ newline :: body') :
    lines = lines' ∧ body = body' := by
  induction lines generalizing lines' with
  | nil =>
    cases lines' with
    | nil => exact ⟨rfl, (List.cons.inj h).2⟩
    | cons l lines' => exact absurd h (textLines_cons_ne hl')
  | cons k lines ih =>
    cases lines' with
    | nil => exact absurd h.symm (textLines_cons_ne hl)
    | cons l lines' =>
      have hk := cut_append (v := textLines lines ++ newline :: body) (hl k List.mem_cons_self).2
      have hl₁ := cut_append (v := textLines lines' ++ newline :: body')
        (hl' l List.mem_cons_self).2
      have he : k ++ newline :: (textLines lines ++ newline :: body) =
          l ++ newline :: (textLines lines' ++ newline :: body') := by
        simpa [textLines] using h
      rw [he, hl₁] at hk
      obtain ⟨rfl, hr⟩ := Prod.mk.inj (Option.some.inj hk)
      obtain ⟨rfl, rfl⟩ := ih (fun l hm => hl l (List.mem_cons_of_mem _ hm))
        (fun l hm => hl' l (List.mem_cons_of_mem _ hm)) hr.symm
      exact ⟨rfl, rfl⟩

theorem isResponse_lines {statusLine body : Bytes} {fields : List Bytes}
    (hl : Lines (statusLine :: fields)) (hs : ascii "HTTP/" <+: statusLine) :
    IsResponse (textLines (statusLine :: fields) ++ newline :: body) ↔
      lengthFields fields = [ascii "Content-Length: " ++ decimal body.length] := by
  constructor
  · rintro ⟨statusLine', fields', body', he, hl', _, hf⟩
    obtain ⟨h, rfl⟩ := textLines_injective hl hl' he
    cases h
    exact hf
  · intro hf
    exact ⟨_, _, _, rfl, hl, hs, hf⟩

theorem not_isResponse_error (status : Status) : ¬ IsResponse (errorText status.msg ++ [0]) := by
  have hl : Lines (errorLines status.msg) := by
    cases status <;> decide
  rw [errorText_eq, List.append_assoc, List.cons_append, errorLines,
    isResponse_lines hl ⟨_, (List.append_assoc _ _ _).symm⟩]
  decide

theorem isResponse_header {mimeType body : Bytes} {size : Nat} (hm : newline ∉ mimeType) :
    IsResponse (textLines (headerLines mimeType size) ++ newline :: body) ↔ size = body.length := by
  have hd : newline ∉ decimal size := fun h => absurd (digit_of_mem_decimal h).1 (by decide)
  have hl : Lines (headerLines mimeType size) := by
    simp only [Lines, headerLines, List.forall_mem_cons, List.mem_append, not_or]
    refine ⟨by decide, ⟨List.append_ne_nil_of_left_ne_nil (by decide) _, by decide, hm⟩, by decide,
      ⟨List.append_ne_nil_of_left_ne_nil (by decide) _, by decide, hd⟩,
      List.forall_mem_nil _⟩
  rw [headerLines, isResponse_lines hl (by decide)]
  have hf : lengthFields [ascii "Content-Type: " ++ mimeType, ascii "Connection: close",
      ascii "Content-Length: " ++ decimal size] = [ascii "Content-Length: " ++ decimal size] := rfl
  rw [hf, List.singleton_inj, List.append_cancel_left_eq]
  exact ⟨fun h => decimal_injective h, fun h => h ▸ rfl⟩

variable {surroundings : Surroundings}

/-- What one `fread` of the transfer delivers. -/
def chunk (surroundings : Surroundings) (infile i : Nat) : Bytes :=
  (surroundings.fread infile i).take bufsize

def readSoFar (surroundings : Surroundings) (infile n : Nat) : Bytes :=
  (List.range n).flatMap (chunk surroundings infile)

/-- The first `fread` that delivers nothing is the one after `n` others. -/
def StopsAt (surroundings : Surroundings) (infile n : Nat) : Prop :=
  (∀ i < n, chunk surroundings infile i ≠ []) ∧ chunk surroundings infile n = []

/-- A file that keeps its size and content: what is read are its bytes from the
start, and all of them unless an error is reported. -/
structure Steady (surroundings : Surroundings) (uri content : Bytes) : Prop where
  size : ∀ size, surroundings.stat uri = .ok size → size = content.length
  small : content.length < 2 ^ 63
  pieces : ∀ infile, surroundings.fopen uri = .ok infile → ∀ n,
    (∀ i < n, chunk surroundings infile i ≠ []) → readSoFar surroundings infile n <+: content
  whole : ∀ infile, surroundings.fopen uri = .ok infile → surroundings.ferror infile = false →
    ∀ n, StopsAt surroundings infile n → readSoFar surroundings infile n = content

theorem readSoFar_succ (infile n : Nat) : readSoFar surroundings infile (n + 1) =
    readSoFar surroundings infile n ++ chunk surroundings infile n := by
  simp [readSoFar, List.range_succ]

theorem readSoFar_length {infile n : Nat} (hn : ∀ i < n, chunk surroundings infile i ≠ []) :
    n ≤ (readSoFar surroundings infile n).length := by
  induction n with
  | zero => exact Nat.zero_le _
  | succ n ih =>
    have hpos := List.length_pos_of_ne_nil (hn n (Nat.lt_succ_self n))
    have hle := ih (fun i hi => hn i (Nat.lt_succ_of_lt hi))
    rw [readSoFar_succ, List.length_append]
    omega

theorem Steady.stops {uri content : Bytes} {infile : Nat} (hs : Steady surroundings uri content)
    (ho : surroundings.fopen uri = .ok infile) : ∃ n, StopsAt surroundings infile n := by
  have hex : ∃ n, chunk surroundings infile n = [] := by
    by_contra hn
    have hne : ∀ i < content.length + 1, chunk surroundings infile i ≠ [] :=
      fun i _ h => hn ⟨i, h⟩
    have hle := (hs.pieces infile ho _ hne).length_le
    have hge := readSoFar_length hne
    omega
  exact ⟨Nat.find hex, fun i hi => Nat.find_min hex hi, Nat.find_spec hex⟩

/-- `send` accepts all the bytes it is given. -/
def TakesAll (surroundings : Surroundings) : Prop :=
  ∀ sent bytes, surroundings.takes sent bytes = bytes.length

theorem respond_runs (fd : Int) (w : Exchange) (status : Status) : ∃ w',
    Runs (handled surroundings.answer) (respond status fd) w (.returned ()) w' ∧
      w'.sent = (errorText status.msg ++ [0]) :: w.sent := by
  rw [respond_eq]
  exact ⟨_, runs_call rfl (runs_call rfl runs_done), rfl⟩

theorem respondIf_runs (fd : Int) (w : Exchange) (failed : Bool) (status : Status) : ∃ w',
    Runs (handled surroundings.answer) (respondIf failed status fd) w (.returned ()) w' ∧
      w'.sent = (if failed then [errorText status.msg ++ [0]] else []) ++ w.sent := by
  cases failed with
  | false => exact ⟨w, runs_done, rfl⟩
  | true => exact respond_runs fd w status

variable {fd : Int} {w : Exchange}

/-- The exchange after `n` pieces of the file. -/
def piecesSent (surroundings : Surroundings) (w : Exchange) (infile n : Nat) : Exchange :=
  { w with sent := ((List.range n).map (chunk surroundings infile)).reverse ++ w.sent, freads := n }

theorem piecesSent_succ (infile n : Nat) : piecesSent surroundings w infile (n + 1) =
    { w with
      sent := chunk surroundings infile n :: (piecesSent surroundings w infile n).sent
      freads := n + 1 } := by
  simp [piecesSent, List.range_succ]

theorem fread_answer (infile n : Nat) :
    surroundings.answer (piecesSent surroundings w infile n) (.fread infile bufsize) =
      (chunk surroundings infile n, { piecesSent surroundings w infile n with freads := n + 1 }) :=
  rfl

theorem transfer_runs (fd : Int) {infile n : Nat} (hn : StopsAt surroundings infile n)
    (hw : w.freads = 0) :
    Iterates (fun u => Runs (handled surroundings.answer) (transferStep fd infile u)) () w
      (.returned ()) { piecesSent surroundings w infile n with freads := n + 1 } := by
  have h₀ : piecesSent surroundings w infile 0 = w := by
    cases w
    simpa [piecesSent] using hw.symm
  have hstop : Iterates (fun u => Runs (handled surroundings.answer) (transferStep fd infile u)) ()
      (piecesSent surroundings w infile n) (.returned ())
      { piecesSent surroundings w infile n with freads := n + 1 } := by
    simp only [transferStep, fread, library, ask_bind]
    refine .stop (runs_call (fread_answer infile n) ?_)
    rw [if_pos hn.2]
    exact runs_done
  have hsteps := iterates_steps (fun _ => ()) (piecesSent surroundings w infile) n (fun i hi => ?_)
    hstop
  · rwa [h₀] at hsteps
  · simp only [transferStep, fread, send, library, ask_bind]
    apply runs_call (fread_answer infile i)
    rw [if_neg (hn.1 i hi), piecesSent_succ]
    exact runs_call rfl runs_done

/-- What is sent behind the header, when `n` pieces of the file are read. -/
def sentBehind (surroundings : Surroundings) (uri : Bytes) (n : Nat) : Bytes :=
  match surroundings.fopen uri with
  | .error .enoent => errorText Status.status404.msg ++ [0]
  | .error _ => errorText Status.status500.msg ++ [0]
  | .ok infile => readSoFar surroundings infile n ++
      if surroundings.ferror infile then errorText Status.status500.msg ++ [0] else []

theorem sendFile_runs (fd : Int) {uri mimeType head : Bytes} {size : Nat} {n : Nat}
    (ht : TakesAll surroundings) (hh : header mimeType size = some head)
    (hn : ∀ infile, surroundings.fopen uri = .ok infile → StopsAt surroundings infile n)
    (hw : w.freads = 0) : ∃ w',
    Runs (handled surroundings.answer) (sendFile fd ⟨uri, mimeType, size⟩) w (.returned ()) w' ∧
      w'.sent.reverse.flatten =
        w.sent.reverse.flatten ++ head ++ sentBehind surroundings uri n := by
  simp only [sendFile, hh, access, Program.pure_eq, Program.done_bind, send, fopen, ferror, fclose,
    close, library, ask_bind]
  have hsent : ¬ surroundings.takes w.sent head ≠ head.length := not_not.mpr (ht _ _)
  have hanswer (status : Status) : ∃ w', Runs (handled surroundings.answer) (respond status fd)
      { w with sent := head :: w.sent } (.returned ()) w' ∧
        w'.sent.reverse.flatten = w.sent.reverse.flatten ++ head ++
          (errorText status.msg ++ [0]) := by
    obtain ⟨w', hr, hw'⟩ := respond_runs fd { w with sent := head :: w.sent } status
    exact ⟨w', hr, by simp [hw']⟩
  have hopened {k : Except Errno Nat → Process Unit} {w' : Exchange}
      (hr : Runs (handled surroundings.answer) (k (surroundings.fopen uri))
        { w with sent := head :: w.sent } (.returned ()) w') :
      Runs (handled surroundings.answer) (.call (.send fd .header head) fun sent =>
        if sent ≠ head.length then .done () else .call (.fopen uri) k) w (.returned ()) w' := by
    apply runs_call rfl
    rw [if_neg hsent]
    exact runs_call rfl hr
  rw [sentBehind]
  cases ho : surroundings.fopen uri with
  | error e =>
    rw [ho] at hopened
    cases e with
    | enoent =>
      obtain ⟨w', hr, hw'⟩ := hanswer .status404
      exact ⟨w', hopened hr, hw'⟩
    | eintr | other =>
      obtain ⟨w', hr, hw'⟩ := hanswer .status500
      exact ⟨w', hopened hr, hw'⟩
  | ok infile =>
    rw [ho] at hopened
    have hloop := transfer_runs (w := { w with sent := head :: w.sent }) fd (hn infile ho) hw
    obtain ⟨w₂, hr, hw₂⟩ := respondIf_runs fd _ (surroundings.ferror infile) .status500
    refine ⟨_, hopened (.next hloop (runs_call rfl (runs_next hr
      (runs_call rfl (runs_call rfl runs_done))))), ?_⟩
    by_cases hf : surroundings.ferror infile = true
    · simp [hw₂, hf, piecesSent, readSoFar, List.flatMap]
    · simp [hw₂, hf, piecesSent, readSoFar, List.flatMap]

/-- A file that is found is sent in full. Otherwise the size is by accident
that of what comes in its place. -/
def Delivered (surroundings : Surroundings) (uri : Bytes) (size : Int) : Prop :=
  match surroundings.fopen uri with
  | .error .enoent => size = (errorText Status.status404.msg ++ [0]).length
  | .error _ => size = (errorText Status.status500.msg ++ [0]).length
  | .ok infile => surroundings.ferror infile = true → ∃ n, StopsAt surroundings infile n ∧
      size = (readSoFar surroundings infile n ++ (errorText Status.status500.msg ++ [0])).length

/-- The requested file is there with a known extension, and is delivered. -/
def Complete (surroundings : Surroundings) (request : Request) : Prop :=
  ∃ uri size mimeType, request = .accepted uri ∧ surroundings.stat uri = .ok size ∧
    guessMimeType uri = some (some mimeType) ∧ Delivered surroundings uri size

theorem stopsAt_unique {infile n n' : Nat} (h : StopsAt surroundings infile n)
    (h' : StopsAt surroundings infile n') : n = n' := by
  obtain hlt | he | hlt := Nat.lt_trichotomy n n'
  · exact absurd h.2 (h'.1 n hlt)
  · exact he
  · exact absurd h'.2 (h.1 n' hlt)

theorem delivered_iff {uri content : Bytes} {n : Nat} (hs : Steady surroundings uri content)
    (hn : ∀ infile, surroundings.fopen uri = .ok infile → StopsAt surroundings infile n) :
    Delivered surroundings uri content.length ↔
      content.length = (sentBehind surroundings uri n).length := by
  rw [Delivered, sentBehind]
  cases ho : surroundings.fopen uri with
  | error e => cases e <;> exact Int.natCast_inj
  | ok infile =>
    have hstop := hn infile ho
    cases hf : surroundings.ferror infile with
    | false =>
      have hwhole := hs.whole infile ho hf n hstop
      simp only [hf, hwhole, Bool.false_eq_true, if_false, false_implies, List.append_nil]
    | true =>
      simp only [hf, if_true, true_implies, Int.natCast_inj]
      refine ⟨fun ⟨n', hn', he⟩ => ?_, fun he => ⟨n, hstop, he⟩⟩
      rwa [stopsAt_unique hstop hn']

variable {m m' : RequestLine} {request : Request}

/-- An error has been answered, or there is a file to send. -/
def Handled (surroundings : Surroundings) (request : Request) (w w₁ : Exchange) :
    Option Served → Prop
  | none => ¬ Complete surroundings request ∧
      ∃ status : Status, w₁.sent = (errorText status.msg ++ [0]) :: w.sent
  | some served => request = .accepted served.uri ∧ surroundings.stat served.uri = .ok served.size ∧
      guessMimeType served.uri = some (some served.mimeType) ∧ w₁ = w

theorem not_complete {uri : Bytes} (h : ∀ size, surroundings.stat uri ≠ .ok size) :
    ¬ Complete surroundings (.accepted uri) := by
  rintro ⟨_, size, _, he, hs, _⟩
  cases he
  exact h size hs

theorem handleRequest_runs (fd : Int) (w : Exchange) (hp : parseRequest m = some (m', request))
    (hext : ∀ uri size, request = .accepted uri → surroundings.stat uri = .ok size →
      guessMimeType uri ≠ none) : ∃ served w₁,
    Runs (handled surroundings.answer) (handleRequest fd m) w (.returned (m', served)) w₁ ∧
      Handled surroundings request w w₁ served := by
  have hreject (status : Status) (hc : ¬ Complete surroundings request) : ∃ served w₁,
      Runs (handled surroundings.answer) (do respond status fd; .done (m', (none : Option Served)))
        w (.returned (m', served)) w₁ ∧ Handled surroundings request w w₁ served := by
    obtain ⟨w₁, hr, hw₁⟩ := respond_runs fd w status
    exact ⟨none, w₁, runs_next hr runs_done, hc, status, hw₁⟩
  simp only [handleRequest, hp, access, Program.pure_eq, Program.done_bind, stat, library, ask_bind]
  cases request with
  | rejected status => exact hreject status (by rintro ⟨_, _, _, ⟨⟩, _⟩)
  | accepted uri =>
    have hcall {found : Except Errno Int} (h : surroundings.stat uri = found) :
        surroundings.answer w (.stat uri) = (found, w) := h ▸ rfl
    cases hs : surroundings.stat uri with
    | error e =>
      have hc : ¬ Complete surroundings (.accepted uri) := not_complete (fun _ => by simp [hs])
      cases e with
      | enoent =>
        obtain ⟨served, w₁, hr, hh⟩ := hreject .status404 hc
        exact ⟨served, w₁, runs_call (hcall hs) hr, hh⟩
      | eintr | other =>
        obtain ⟨served, w₁, hr, hh⟩ := hreject .status500 hc
        exact ⟨served, w₁, runs_call (hcall hs) hr, hh⟩
    | ok size =>
      cases hg : guessMimeType uri with
      | none => exact absurd hg (hext uri size rfl hs)
      | some known =>
        cases known with
        | none =>
          have hc : ¬ Complete surroundings (.accepted uri) := by
            rintro ⟨_, _, _, ⟨⟩, _, hm, _⟩
            cases hg.symm.trans hm
          obtain ⟨served, w₁, hr, hh⟩ := hreject .status400 hc
          refine ⟨served, w₁, runs_call (hcall hs) ?_, hh⟩
          simpa only [hg, Program.done_bind] using hr
        | some mimeType =>
          refine ⟨some ⟨uri, mimeType, size⟩, w, runs_call (hcall hs) ?_, rfl, hs, hg, rfl⟩
          simp only [hg, Program.done_bind]
          exact runs_done

/-- Whatever is sent once a request has been read makes one response. -/
def SendsResponse (surroundings : Surroundings) (s : State) (fd : Int) (bytes : Option Bytes) :
    Prop :=
  Yields (handled surroundings.answer) (do let _ ← serveRead s fd bytes) .start
    (fun _ w => IsResponse w.sent.reverse.flatten)

theorem closeIf_runs (surroundings : Surroundings) (fd : Int) (failed : Bool) : ∃ w,
    Runs (handled surroundings.answer) (closeIf failed fd) .start (.returned ()) w ∧
      w.sent = [] ∧ w.freads = 0 := by
  cases failed with
  | false => exact ⟨_, runs_done, rfl, rfl⟩
  | true => exact ⟨_, runs_call rfl runs_done, rfl, rfl⟩

theorem serveRead_runs (fd : Int) (s : State) (bytes : Option Bytes)
    (hm : readInto s.requestLine (bytes.getD []) = some m)
    (hp : parseRequest m = some (m', request)) (ht : TakesAll surroundings)
    (hext : ∀ uri size, request = .accepted uri → surroundings.stat uri = .ok size →
      guessMimeType uri ≠ none)
    (hsteady : ∀ uri, request = .accepted uri → ∃ content, Steady surroundings uri content) :
    ∃ w, Runs (handled surroundings.answer) (do let _ ← serveRead s fd bytes) .start
        (.returned ()) w ∧
      (IsResponse w.sent.reverse.flatten ↔ Complete surroundings request) := by
  obtain ⟨w₀, hclose, hsent, hfreads⟩ := closeIf_runs surroundings fd bytes.isNone
  obtain ⟨served, w₁, hhandle, hserved⟩ := handleRequest_runs fd w₀ hp hext
  simp only [serveRead, hm, access, Program.pure_eq, Program.done_bind, bind_assoc]
  cases served with
  | none =>
    obtain ⟨hc, status, hw₁⟩ := hserved
    refine ⟨w₁, runs_next hclose (runs_next hhandle runs_done), ?_⟩
    simpa [hw₁, hsent, hc] using not_isResponse_error status
  | some served =>
    obtain ⟨uri, mimeType, size⟩ := served
    obtain ⟨hr, hs, hg, rfl⟩ : request = .accepted uri ∧ surroundings.stat uri = .ok size ∧
      guessMimeType uri = some (some mimeType) ∧ w₁ = w₀ := hserved
    obtain ⟨content, hcontent⟩ := hsteady uri hr
    obtain ⟨n, hn⟩ : ∃ n, ∀ infile, surroundings.fopen uri = .ok infile →
        StopsAt surroundings infile n := by
      cases ho : surroundings.fopen uri with
      | error e => exact ⟨0, fun _ he => by cases he⟩
      | ok infile =>
        obtain ⟨n, hn⟩ := hcontent.stops ho
        exact ⟨n, fun _ he => Except.ok.inj he ▸ hn⟩
    obtain rfl : size = content.length := hcontent.size size hs
    obtain ⟨hzero, hnewline, hlen⟩ := guessMimeType_small hg
    have hsize : content.length < 10 ^ 20 := by
      have hsmall := hcontent.small
      omega
    have hhead := header_eq hzero hlen hsize
    obtain ⟨w, hsend, hw⟩ := sendFile_runs fd ht hhead hn hfreads
    refine ⟨w, runs_next hclose (runs_next hhandle ?_), ?_⟩
    · simp only [bind_assoc, Program.done_bind]
      exact runs_next hsend runs_done
    rw [hw, hsent, List.reverse_nil, List.flatten_nil, List.nil_append, List.append_assoc,
      List.singleton_append, isResponse_header hnewline, ← delivered_iff hcontent hn]
    refine ⟨fun h => ⟨uri, _, _, hr, hs, hg, h⟩, ?_⟩
    rintro ⟨_, _, _, hr', hs', _, h⟩
    obtain rfl := Request.accepted.inj (hr.symm.trans hr')
    rwa [← Except.ok.inj (hs.symm.trans hs')] at h

/-- One response is sent exactly when the requested file is there with a known
extension and is delivered in full, accidents of its size apart. -/
theorem sendsResponse_iff {s : State} {bytes : Option Bytes}
    (hm : readInto s.requestLine (bytes.getD []) = some m)
    (hp : parseRequest m = some (m', request)) (ht : TakesAll surroundings)
    (hext : ∀ uri size, request = .accepted uri → surroundings.stat uri = .ok size →
      guessMimeType uri ≠ none)
    (hsteady : ∀ uri, request = .accepted uri → ∃ content, Steady surroundings uri content) :
    SendsResponse surroundings s fd bytes ↔ Complete surroundings request := by
  obtain ⟨w, hr, hw⟩ := serveRead_runs fd s bytes hm hp ht hext hsteady
  rw [← hw]
  exact ⟨fun h => yields_returned h hr, fun h => yields_of_runs hr h⟩

/-- Surroundings with one file of three bytes. -/
def oneFile : Surroundings :=
  ⟨fun _ => .ok 3, fun _ => .ok 1, fun _ i => if i = 0 then ascii "GIF" else [], fun _ => false,
    fun _ bytes => bytes.length⟩

theorem oneFile_steady (uri : Bytes) : Steady oneFile uri (ascii "GIF") := by
  have hle : ∀ n, (∀ i < n, chunk oneFile 1 i ≠ []) → n = 0 ∨ n = 1 := by
    intro n hn
    by_contra h
    exact hn 1 (by omega) rfl
  refine ⟨fun size h => (Except.ok.inj h).symm, by decide, ?_, ?_⟩
  · rintro infile ⟨⟩ n hn
    obtain rfl | rfl := hle n hn <;> decide
  · rintro infile ⟨⟩ _ n ⟨hn, hstop⟩
    obtain rfl | rfl := hle n hn
    · exact absurd hstop (by decide)
    · decide

theorem parse_fresh {request : Request} (b : Bytes) (hb : b.length ≤ maxRequestLineLen)
    (h : stringRequest ((delivered (Buffer.zeros _) b).takeWhile (· ≠ 0)) = some request) :
    ∃ m m', readInto (Buffer.zeros _) b = some m ∧ parseRequest m = some (m', request) := by
  obtain ⟨m, hm, _⟩ : ∃ m, readInto (Buffer.zeros _) b = some m ∧ _ := readInto_eq hb
  obtain ⟨⟨m', _⟩, hp, rfl⟩ := Option.map_eq_some_iff.mp ((parse_readInto hb hm).trans h)
  exact ⟨m, m', hm, hp⟩

theorem sendsResponse_iff_gif :
    SendsResponse oneFile (State.start 3 (Buffer.zeros _)) 5
        (some (ascii "GET /a.gif HTTP/1.0\n")) ↔
      Complete oneFile (.accepted (ascii "a.gif")) := by
  obtain ⟨m, m', hm, hp⟩ : ∃ m m', readInto _ _ = some m ∧
      parseRequest m = some (m', .accepted (ascii "a.gif")) :=
    parse_fresh (ascii "GET /a.gif HTTP/1.0\n") (by decide) (by decide +kernel)
  refine sendsResponse_iff hm hp (fun _ _ => rfl) (fun uri _ h _ => ?_)
    (fun uri _ => ⟨_, oneFile_steady uri⟩)
  cases h
  decide +kernel

theorem letter_answered : ¬ ∀ (surroundings : Surroundings) (s : State) (fd : Int)
    (bytes : Option Bytes) (m m' : RequestLine) (request : Request), TakesAll surroundings →
    readInto s.requestLine (bytes.getD []) = some m → parseRequest m = some (m', request) →
    (∀ uri size, request = .accepted uri → surroundings.stat uri = .ok size →
      guessMimeType uri ≠ none) →
    (∀ uri, request = .accepted uri → ∃ content, Steady surroundings uri content) →
    SendsResponse surroundings s fd bytes := by
  intro h
  obtain ⟨m, m', hm, hp⟩ : ∃ m m', readInto _ _ = some m ∧
      parseRequest m = some (m', .rejected .status400) :=
    parse_fresh (ascii "a") (by decide) (by decide +kernel)
  have ht : TakesAll noFiles := fun _ _ => rfl
  have hs := h noFiles (State.start 3 (Buffer.zeros _)) 5 (some (ascii "a")) m m' _ ht hm hp
    nofun nofun
  obtain ⟨w, hr, hw⟩ := serveRead_runs 5 (State.start 3 (Buffer.zeros _)) (some (ascii "a"))
    hm hp ht nofun nofun
  obtain ⟨_, _, _, hc, _⟩ := hw.mp (yields_returned hs hr)
  cases hc

end Ti3.Http.OneResponse
