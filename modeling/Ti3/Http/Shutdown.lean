import Ti3.Http.EndOfFile
import Ti3.Http.OpenClients
import Ti3.Library.Calls

namespace Ti3.Http.Shutdown

open Library.CString Library.CMemory Library.Interaction Library.Linked Library.Rules
open Library.History Library.Calls Server Response Descriptors Invariants EndOfFile

-- The texts are known by their equations; evaluating them on the way is slow.
attribute [local irreducible] message header

/-- `pselect` has failed, for another reason than a signal. -/
def Failed (selected : Selected) : Prop :=
  selected.error ≠ none ∧ selected.error ≠ some .eintr

/-- Every `pselect` has told of descriptors, or of nothing yet. -/
def Undisturbed (h : History) : Prop :=
  ∀ n readfds selected, ⟨.pselect n readfds, selected⟩ ∈ h →
    ¬ Failed selected ∧ selected.gotSigint = false

/-- Some descriptors have been closed one after the other. -/
def closings (fds : List Int) (answers : List Int) : History :=
  (List.zipWith (fun fd answer => (⟨.close fd, answer⟩ : Event Call Answer)) fds answers).reverse

/-- What follows a disturbance: the end, or the closing of all clients and of the socket. -/
inductive Ending (sockFd : Int) (clients : List Int) (selected : Selected) :
    Outcome Exit Unit → History → Prop
  | failed (o : Outcome Exit Unit) : Failed selected →
      (o = .cut ∨ o = .halted (.status errSelect (ascii "Error during select"))) →
        Ending sockFd clients selected o []
  | closing (answers : List Int) : ¬ Failed selected → selected.gotSigint = true →
      answers.length ≤ (clients ++ [sockFd]).length →
        Ending sockFd clients selected .cut (closings (clients ++ [sockFd]) answers)
  | closed (answers : List Int) : ¬ Failed selected → selected.gotSigint = true →
      answers.length = (clients ++ [sockFd]).length →
        Ending sockFd clients selected
          (.halted (.status (if -1 ∈ answers then errShutdown else exitOk) []))
          (closings (clients ++ [sockFd]) answers)

/-- Among reliable calls these are the open clients. -/
def Listed (clients : List Int) (h : History) : Prop :=
  Throughout OpenClients.Reliable h → ∀ d, d ∈ clients ↔ StillOpen h d

/-- How far the server has come: it still runs or has died of undefined behaviour, or its
last `pselect`, for the open clients, was disturbed and it comes to its end. -/
inductive Ends (sockFd : Int) (o : Outcome Exit Unit) : History → Prop
  | running {h : History} : Undisturbed h → (o = .cut ∨ o = .halted .fault) → Ends sockFd o h
  | ending {h late : History} {n : Int} {clients : List Int} {selected : Selected} :
      Undisturbed h → Listed clients h → Ending sockFd clients selected o late →
        Ends sockFd o (late ++ ⟨.pselect n (sockFd :: clients), selected⟩ :: h)

section faults

variable {fd : Int} {s : State}

theorem faults_access {α : Type} (a : Option α) :
    OnlyHalts (· = Exit.fault) (access a : Process α) := by
  cases a with
  | none => exact rfl
  | some a => trivial

theorem faults_respond (status : Status) : OnlyHalts (· = .fault) (respond status fd) := by
  rw [respond_eq]
  exact fun _ _ => trivial

theorem faults_transferStep (infile : Nat) (u : Unit) :
    OnlyHalts (· = .fault) (transferStep fd infile u) := by
  refine onlyHalts_bind (p := fread infile bufsize) (fun _ => trivial) (fun buf => ?_)
  split
  · trivial
  · exact fun _ => trivial

theorem faults_sendFile (served : Served) : OnlyHalts (· = .fault) (sendFile fd served) := by
  refine onlyHalts_bind (faults_access _) (fun header => ?_)
  refine onlyHalts_bind (p := send fd .header header) (fun _ => trivial) (fun sent => ?_)
  split
  · trivial
  · refine onlyHalts_bind (p := fopen served.uri) (fun _ => trivial) (fun found => ?_)
    cases found with
    | error e => cases e <;> exact faults_respond _
    | ok infile =>
      refine ⟨faults_transferStep infile, fun _ => ?_⟩
      refine onlyHalts_bind (p := ferror infile) (fun _ => trivial) (fun failed => ?_)
      refine onlyHalts_bind ?_ (fun _ _ _ => trivial)
      cases failed with
      | false => trivial
      | true => exact faults_respond _

theorem faults_handleRequest (requestLine : RequestLine) :
    OnlyHalts (· = .fault) (handleRequest fd requestLine) := by
  refine onlyHalts_bind (faults_access _) (fun p => ?_)
  obtain ⟨m, request⟩ := p
  have hreject (status : Status) : OnlyHalts (· = .fault)
      (do respond status fd; .done (m, (none : Option Served))) :=
    onlyHalts_bind (faults_respond status) (fun _ => trivial)
  cases request with
  | rejected status => exact hreject status
  | accepted uri =>
    refine onlyHalts_bind (p := stat uri) (fun _ => trivial) (fun found => ?_)
    cases found with
    | error e => cases e <;> exact hreject _
    | ok size =>
      refine onlyHalts_bind (faults_access _) (fun t => ?_)
      cases t with
      | none => exact hreject _
      | some mimeType => trivial

theorem faults_serveRead (bytes : Option Bytes) :
    OnlyHalts (· = .fault) (serveRead s fd bytes) := by
  refine onlyHalts_bind ?_ (fun _ => onlyHalts_bind (faults_access _) (fun requestLine => ?_))
  · cases bytes with
    | none => exact fun _ => trivial
    | some bytes => trivial
  · refine onlyHalts_bind (faults_handleRequest requestLine) (fun r => ?_)
    obtain ⟨requestLine, served⟩ := r
    cases served with
    | none => trivial
    | some served => exact onlyHalts_bind (faults_sendFile served) (fun _ => trivial)

theorem faults_walkStep (readfds : List Int) (c : State × Option Nat) :
    OnlyHalts (· = .fault) (walkStep readfds c) := by
  obtain ⟨s, cur⟩ := c
  cases cur with
  | none => trivial
  | some curClient =>
    simp only [walkStep]
    cases s.clientFds.nodeAt curClient with
    | none => exact rfl
    | some node =>
      refine onlyHalts_bind ?_ (fun s' => onlyHalts_bind ?_ (fun _ => trivial))
      · rw [serveClient]
        split
        · refine onlyHalts_bind (p := read node.data maxRequestLineLen) (fun _ => trivial)
            (fun bytes => ?_)
          split
          · trivial
          · exact faults_serveRead _
        · trivial
      · rw [slistNext]
        split
        · trivial
        · exact fun _ => trivial

end faults

/-- All calls but the one that waits. -/
def Busy : Call → Prop
  | .pselect _ _ => False
  | _ => True

theorem busy_walkStep (readfds : List Int) (c : State × Option Nat) :
    Only Busy (walkStep readfds c) := by
  have hserves (fd : Int) (c : Call) (hc : Serves fd c) : Busy c := by
    cases c with
    | pselect => exact hc
    | _ => trivial
  obtain ⟨s, cur⟩ := c
  cases cur with
  | none => trivial
  | some curClient =>
    simp only [walkStep]
    cases s.clientFds.nodeAt curClient with
    | none => trivial
    | some node =>
      refine only_bind ?_ (fun s' => only_bind ?_ (fun _ => trivial))
      · rw [serveClient]
        split
        · refine only_bind (p := read node.data maxRequestLineLen) ⟨trivial, fun _ => trivial⟩
            (fun bytes => ?_)
          split
          · trivial
          · exact only_mono (only_serveRead _) (hserves _)
        · trivial
      · rw [slistNext]
        split
        · trivial
        · exact ⟨trivial, fun _ => trivial⟩

section closing

variable {allowed : History → (c : Call) → Answer c → Prop} {sockFd : Int} {h : History}

theorem closings_cons (fd answer : Int) (fds answers : List Int) :
    closings (fd :: fds) (answer :: answers) =
      closings fds answers ++ [⟨.close fd, answer⟩] := by
  simp [closings]

theorem closings_concat {fds answers : List Int} (hl : answers.length = fds.length)
    (answer : Int) : closings (fds ++ [sockFd]) (answers ++ [answer]) =
      ⟨.close sockFd, answer⟩ :: closings fds answers := by
  rw [closings, List.zipWith_append hl.symm, List.reverse_append]
  rfl

theorem closings_early {fds answers : List Int} (hl : answers.length ≤ fds.length) :
    closings (fds ++ [sockFd]) answers = closings fds answers := by
  induction fds generalizing answers with
  | nil =>
    cases List.length_eq_zero_iff.mp (Nat.le_zero.mp hl)
    rfl
  | cons fd fds ih =>
    cases answers with
    | nil => rfl
    | cons a answers =>
      rw [List.cons_append, closings_cons, closings_cons, ih (Nat.le_of_succ_le_succ hl)]

theorem closeAll_runs (fds : List Int) (proper : Bool) (h : History) :
    Guarantees (recorded allowed) (closeAll fds proper) h (fun o h' => ∃ answers,
      answers.length ≤ fds.length ∧ h' = closings fds answers ++ h ∧
        (o = .cut ∨ (answers.length = fds.length ∧
          o = .returned (proper && decide (-1 ∉ answers))))) := by
  induction fds generalizing proper h with
  | nil =>
    refine guarantees_done.mpr ⟨⟨[], Nat.le_refl _, rfl, .inl rfl⟩, [], Nat.le_refl _, rfl, .inr ?_⟩
    simp
  | cons fd fds ih =>
    simp only [closeAll, close, library, ask_bind]
    refine guarantees_call.mpr ⟨⟨[], Nat.zero_le _, rfl, .inl rfl⟩, ?_⟩
    rintro a _ ⟨-, rfl⟩
    refine guarantees_mono (ih _ _) ?_
    rintro o h' ⟨answers, hl, rfl, ho⟩
    refine ⟨a :: answers, Nat.succ_le_succ hl, ?_, ho.imp_right ?_⟩
    · rw [closings_cons, List.append_assoc]
      rfl
    · rintro ⟨hl, rfl⟩
      refine ⟨congrArg (· + 1) hl, ?_⟩
      by_cases ha : a = -1
      · simp [ha]
      · simp [ha, Ne.symm ha]

/-- The status tells whether every `close` has worked. -/
theorem shutDown_runs {α : Type} (clientFds : LinkedList Int) (h : History) :
    Guarantees (recorded allowed) (shutDown sockFd clientFds : Process α) h (fun o h' => ∃ answers,
      answers.length ≤ (clientFds.values ++ [sockFd]).length ∧
      h' = closings (clientFds.values ++ [sockFd]) answers ++ h ∧
        (o = .cut ∨ (answers.length = (clientFds.values ++ [sockFd]).length ∧
          o = .halted (.status (if -1 ∈ answers then errShutdown else exitOk) [])))) := by
  have hle {answers : List Int} (hl : answers.length ≤ clientFds.values.length) :
      answers.length ≤ (clientFds.values ++ [sockFd]).length := by
    rw [List.length_append]
    exact Nat.le_add_right_of_le hl
  refine guarantees_bind (guarantees_mono (closeAll_runs clientFds.values true h) ?_)
  rintro o h₁ ⟨answers, hl, rfl, ho⟩
  have hcut : closings clientFds.values answers ++ h =
      closings (clientFds.values ++ [sockFd]) answers ++ h := by
    rw [closings_early hl]
  obtain rfl | ⟨hlen, rfl⟩ := ho
  · exact ⟨answers, hle hl, hcut, .inl rfl⟩
  simp only [follow, close, library, ask_bind]
  refine guarantees_call.mpr ⟨⟨answers, hle hl, hcut, .inl rfl⟩, ?_⟩
  rintro a _ ⟨-, rfl⟩
  have hall : (answers ++ [a]).length = (clientFds.values ++ [sockFd]).length := by
    rw [List.length_append, List.length_append, hlen]
    rfl
  have hlast : (⟨.close sockFd, a⟩ : Event Call Answer) ::
      (closings clientFds.values answers ++ h) =
        closings (clientFds.values ++ [sockFd]) (answers ++ [a]) ++ h := by
    rw [closings_concat hlen]
    rfl
  have hstatus : (if true && decide (-1 ∉ answers) && decide (a ≠ -1) then
      (.halt (.status exitOk []) : Process α) else .halt (.status errShutdown [])) =
        .halt (.status (if -1 ∈ answers ++ [a] then errShutdown else exitOk) []) := by
    by_cases hm : -1 ∈ answers
    · simp [hm]
    · by_cases ha : a = -1
      · simp [hm, ha]
      · simp [hm, ha, Ne.symm ha]
  rw [hstatus]
  exact guarantees_halt.mpr ⟨⟨_, Nat.le_of_eq hall, hlast, .inl rfl⟩, _, Nat.le_of_eq hall, hlast,
    .inr ⟨hall, rfl⟩⟩

end closing

section loop

variable {allowed : History → (c : Call) → Answer c → Prop} {sockFd : Int} {h : History} {s : State}

theorem undisturbed_busy (h : History) (c : Call) (a : Answer c) (hc : Busy c)
    (hu : Undisturbed h) : Undisturbed (⟨c, a⟩ :: h) := by
  intro n readfds selected hm
  obtain he | hm := List.mem_cons.mp hm
  · cases he
    exact hc.elim
  · exact hu n readfds selected hm

theorem undisturbed_pselect {n : Int} {readfds : List Int} {selected : Selected}
    (hf : ¬ Failed selected) (hg : selected.gotSigint = false) (hu : Undisturbed h) :
    Undisturbed (⟨.pselect n readfds, selected⟩ :: h) := by
  intro n' readfds' selected' hm
  obtain he | hm := List.mem_cons.mp hm
  · cases he
    exact ⟨hf, hg⟩
  · exact hu n' readfds' selected' hm

/-- What is asked of a round of the main loop. -/
def Round (sockFd : Int) : Outcome Exit (State ⊕ Unit) → History → Prop :=
  follow (Ends sockFd) (Sum.elim (fun _ => Undisturbed) (fun _ _ => False))

theorem walk_round (readfds : List Int) (hu : Undisturbed h) :
    Guarantees (recorded allowed) (.loop (walkStep readfds) (s, s.clientFds.first)
      (fun s => .done (.inl s)) : Process (State ⊕ Unit)) h (Round sockFd) := by
  refine guarantees_loop (fun _ => Undisturbed) hu (fun c h hu o h' hr => ?_)
  have hquiet : Undisturbed h' :=
    only_guarantees (busy_walkStep readfds c) Undisturbed undisturbed_busy hu o h' hr
  cases o with
  | cut => exact .running hquiet (.inl rfl)
  | halted e =>
    obtain rfl := onlyHalts_guarantees (faults_walkStep readfds c) (.halted e) h' hr e rfl
    exact .running hquiet (.inr rfl)
  | returned r =>
    cases r with
    | inl c' => exact hquiet
    | inr s' => exact guarantees_done.mpr ⟨.running hquiet (.inl rfl), hquiet⟩

/-- The first disturbance ends the server. -/
theorem mainStep_round (hu : Undisturbed h) (hl : Listed s.clientFds.values h) :
    Guarantees (recorded allowed) (mainStep sockFd s) h (Round sockFd) := by
  have hcut : Round sockFd .cut h := .running hu (.inl rfl)
  refine guarantees_bind ?_
  simp only [awaitEvents, pselect, library, ask_bind]
  refine guarantees_call.mpr ⟨hcut, ?_⟩
  rintro selected _ ⟨-, rfl⟩
  by_cases hf : selected.error ≠ none ∧ selected.error ≠ some .eintr
  · rw [if_pos hf]
    have hfailed {o : Outcome Exit Unit}
        (ho : o = .cut ∨ o = .halted (.status errSelect (ascii "Error during select"))) :
        Ends sockFd o (⟨.pselect (s.maxFd + 1) (sockFd :: s.clientFds.values), selected⟩ :: h) :=
      Ends.ending hu hl (.failed o hf ho)
    exact guarantees_halt.mpr ⟨hfailed (.inl rfl), hfailed (.inr rfl)⟩
  rw [if_neg hf]
  by_cases hg : selected.gotSigint = true
  · rw [if_pos hg]
    refine guarantees_mono (shutDown_runs s.clientFds _) ?_
    rintro o h' ⟨answers, hle, rfl, rfl | ⟨hlen, rfl⟩⟩
    · exact .ending hu hl (.closing answers hf hg hle)
    · exact .ending hu hl (.closed answers hf hg hlen)
  rw [if_neg hg]
  have hnext : Undisturbed
      (⟨.pselect (s.maxFd + 1) (sockFd :: s.clientFds.values), selected⟩ :: h) :=
    undisturbed_pselect hf (Bool.eq_false_iff.mpr hg) hu
  split
  · simp only [accept, library, ask_bind]
    refine guarantees_call.mpr ⟨.running hnext (.inl rfl), ?_⟩
    rintro fd _ ⟨-, rfl⟩
    have haccept := undisturbed_busy _ (.accept sockFd) fd trivial hnext
    exact guarantees_done.mpr ⟨.running haccept (.inl rfl), walk_round _ haccept⟩
  · exact guarantees_done.mpr ⟨.running hnext (.inl rfl), walk_round _ hnext⟩

end loop

section serve

variable {sockFd : Int} {h h' : History} {requestLine : RequestLine} {o : Outcome Exit Unit}

/-- Before each round the clients are known. -/
def Known (s : State) (h : History) : Prop :=
  Undisturbed h ∧ (Throughout OpenClients.Reliable h → OpenClients.Accounted s.clientFds h)

theorem serve_ends (requestLine : RequestLine) :
    Guarantees (recorded (Allowed sockFd)) (serve sockFd requestLine) [] (Ends sockFd) := by
  refine guarantees_loop Known ⟨fun _ _ _ hm => absurd hm List.not_mem_nil, fun _ => ?_⟩ ?_
  · exact ⟨List.nodup_nil, fun d => ⟨fun hd => absurd hd List.not_mem_nil, False.elim⟩⟩
  rintro s h ⟨hu, ha⟩ o h' hr
  have hround := mainStep_round hu (fun ht => (ha ht).2) o h' hr
  cases o with
  | cut | halted _ => exact hround
  | returned r =>
    cases r with
    | inl s' =>
      refine ⟨hround, fun ht => ?_⟩
      have hstart := ha (throughout_of_suffix (runs_suffix _ hr) ht)
      exact (mainStep_preserved OpenClients.accounted_preserved hstart _ _
        (runs_restrict _ hr ht)).2 _ rfl
    | inr u => exact hround.elim

/-- SIGINT is the first thing that happens. -/
def interrupted : Selected := ⟨some .eintr, true, []⟩

end serve

end Ti3.Http.Shutdown
