import Ti3.Http.Shutdown
import Ti3.Library.Embedding
import Ti3.Tcp.TcpClient

namespace Ti3.Http.Signals

open Library.CString Library.CMemory Library.Interaction Library.Rules Library.History
open Library.Embedding Library.Numerals Server Descriptors Shutdown
open Tcp.TcpClient (SockAddr htons)

def errSignal : Nat := 1
def errArg : Nat := 4
def errSocket : Nat := 5
def backlogSize : Nat := 7

/-- The calls before the main loop. `sigprocmask` blocks SIGINT and `sigaction` installs
`handle_SIGINT`. -/
inductive Setup where
  | sigprocmask
  | sigaction
  | socket
  | inetPton (text : Bytes)
  | bind (sockFd : Int) (sockAddr : SockAddr)
  | listen (sockFd : Int) (backlog : Nat)

abbrev SetupAnswer : Setup → Type
  | .inetPton _ => Option Bytes
  | .sigprocmask | .sigaction | .socket | .bind _ _ | .listen _ _ => Int

abbrev MainCall := Setup ⊕ Call

abbrev MainAnswer : MainCall → Type
  | .inl c => SetupAnswer c
  | .inr c => Answer c

abbrev Main := Program MainCall MainAnswer Exit

def setup (c : Setup) : Main (SetupAnswer c) := .call (Sum.inl c) .done

def err {α : Type} (code : Nat) (message : Bytes) : Main α := .halt (.status code message)

def main (requestLine : RequestLine) (argv : List Bytes) : Main Unit :=
  match argv with
  | [_, addressText, portText] => do
    if (← setup .sigprocmask) = -1 then err errSignal (ascii "Cannot block SIGINT")
    else if (← setup .sigaction) = -1 then
      err errSignal (ascii "Cannot install handler for SIGINT")
    else
      let sockFd ← setup .socket
      if sockFd = -1 then err errSocket (ascii "Cannot create socket")
      else match ← setup (.inetPton addressText) with
      | none => err errArg (ascii "Invalid IPv6 address given")
      | some address =>
        let sockAddr := { port := htons (UInt16.ofInt (atoi portText)), address }
        if (← setup (.bind sockFd sockAddr)) = -1 then err errSocket (ascii "Cannot bind socket")
        else if (← setup (.listen sockFd backlogSize)) = -1 then
          err errSocket (ascii "Cannot listen on socket")
        else embed Sum.inr (fun _ a => a) id (serve sockFd requestLine)
  | _ => err errArg (ascii "Arguments: <IPv6 address> <port number>")

/-- What is done about SIGINT, whether it is pending, the flag that `handle_SIGINT` sets, and
what has happened so far, the newest first: the calls of the main loop, and `none` where SIGINT
has arrived. -/
structure World where
  blocked : Bool
  handler : Bool
  pending : Bool
  gotSigint : Bool
  sockFd : Int
  log : List (Option (Event Call Answer))

namespace World

def start : World := ⟨false, false, false, false, 0, []⟩

def record (w : World) (c : Call) (a : Answer c) : World := { w with log := some ⟨c, a⟩ :: w.log }

def calls (w : World) : History := w.log.filterMap id

/-- SIGINT arrives. Without a handler it kills the process. -/
def arrive (w : World) : Option World :=
  if w.blocked then some { w with pending := true, log := none :: w.log }
  else if w.handler then some { w with gotSigint := true, log := none :: w.log }
  else none

end World

/-- While `pselect` waits SIGINT is not blocked: if it is pending the handler runs and
`pselect` is interrupted, unless it fails or finds some descriptors ready at once. -/
def Selects (w : World) (n : Int) (readfds : List Int) (selected : Selected) (w' : World) :
    Prop :=
  (w.pending = true ∧ w.handler = true ∧ selected.error = some .eintr ∧
    selected.gotSigint = true ∧
      w' = World.record { w with pending := false, gotSigint := true } (.pselect n readfds)
        selected) ∨
  ((w.pending = true → Failed selected ∨ selected.readfds ≠ []) ∧
    selected.gotSigint = w.gotSigint ∧ w' = w.record (.pselect n readfds) selected)

/-- The system for a server to which SIGINT may be sent at any time. -/
def signalled : Environment MainCall MainAnswer World := fun w c a w' =>
  ∃ w₁, (w₁ = w ∨ w.arrive = some w₁) ∧ match c, a with
    | .inl .sigprocmask, a => (a = -1 ∧ w' = w₁) ∨ (a = 0 ∧ w' = { w₁ with blocked := true })
    | .inl .sigaction, a => (a = -1 ∧ w' = w₁) ∨ (a = 0 ∧ w' = { w₁ with handler := true })
    | .inl .socket, a => w' = { w₁ with sockFd := a }
    | .inl (.inetPton _), _ | .inl (.bind _ _), _ | .inl (.listen _ _), _ => w' = w₁
    | .inr (.pselect n readfds), selected => Allowed w₁.sockFd w₁.calls (.pselect n readfds)
        selected ∧ Selects w₁ n readfds selected w'
    | .inr c, a => Allowed w₁.sockFd w₁.calls c a ∧ w' = w₁.record c a

/-- The last `pselect` has noticed SIGINT, and the server comes to its end. -/
def Noticed (sockFd : Int) (o : Outcome Exit Unit) (h : History) : Prop :=
  ∃ late n clients selected early, h = late ++ ⟨.pselect n (sockFd :: clients), selected⟩ :: early ∧
    selected.gotSigint = true ∧ Undisturbed early ∧ Ending sockFd clients selected o late

/-- `pselect` does not wait when SIGINT has arrived. -/
def Prompt (w : World) : Prop := ∀ late n readfds selected early,
  w.log = late ++ some ⟨.pselect n readfds, selected⟩ :: early → none ∈ early →
    selected.gotSigint = true ∨ Failed selected ∨ selected.readfds ≠ []

/-- In the main loop: SIGINT is pending or has been noticed. -/
structure Watched (sockFd : Int) (w : World) : Prop where
  blocked : w.blocked = true
  handler : w.handler = true
  sockFd : w.sockFd = sockFd
  kept : none ∈ w.log → w.pending = true ∨ w.gotSigint = true
  noticed : w.gotSigint = true → ∃ n readfds selected,
    ⟨.pselect n readfds, selected⟩ ∈ w.calls ∧ selected.gotSigint = true ∧ ¬ Failed selected
  prompt : Prompt w

section watched

variable {sockFd : Int} {w w₁ w' : World}

theorem mem_record {c : Call} {a : Answer c} (h : none ∈ (w.record c a).log) : none ∈ w.log := by
  obtain he | h := List.mem_cons.mp h
  · cases he
  · exact h

theorem arrive_blocked (hb : w.blocked = true) (h : w.arrive = some w₁) :
    w₁ = { w with pending := true, log := none :: w.log } := by
  rw [World.arrive, if_pos hb] at h
  exact (Option.some.inj h).symm

/-- One more event in front of a log. -/
theorem prompt_cons {e : Option (Event Call Answer)} (hp : Prompt w) (hlog : w'.log = e :: w.log)
    (he : ∀ n readfds selected, e = some ⟨.pselect n readfds, selected⟩ → none ∈ w.log →
      selected.gotSigint = true ∨ Failed selected ∨ selected.readfds ≠ []) : Prompt w' := by
  intro late n readfds selected early hsplit hm
  rw [hlog] at hsplit
  cases late with
  | nil =>
    obtain ⟨rfl, rfl⟩ := List.cons.inj hsplit
    exact he n readfds selected rfl hm
  | cons x late =>
    obtain ⟨-, hsplit⟩ := List.cons.inj hsplit
    exact hp late n readfds selected early hsplit hm

theorem arrive_watched (h : Watched sockFd w) (ha : w₁ = w ∨ w.arrive = some w₁) :
    Watched sockFd w₁ ∧ w₁.calls = w.calls := by
  obtain rfl | ha := ha
  · exact ⟨h, rfl⟩
  obtain rfl := arrive_blocked h.blocked ha
  exact ⟨⟨h.blocked, h.handler, h.sockFd, fun _ => .inl rfl, h.noticed,
    prompt_cons h.prompt rfl (fun _ _ _ he => by cases he)⟩, rfl⟩

theorem record_watched {c : Call} {a : Answer c} (h : Watched sockFd w)
    (hc : ∀ n readfds, c ≠ .pselect n readfds) : Watched sockFd (w.record c a) := by
  refine ⟨h.blocked, h.handler, h.sockFd, fun hm => h.kept (mem_record hm), fun hg => ?_,
    prompt_cons h.prompt rfl ?_⟩
  · obtain ⟨n, readfds, selected, hm, hs⟩ := h.noticed hg
    exact ⟨n, readfds, selected, List.mem_cons_of_mem _ hm, hs⟩
  · rintro n readfds selected ⟨⟩
    exact absurd rfl (hc n readfds)

theorem selects_watched {n : Int} {readfds : List Int} {selected : Selected}
    (h : Watched sockFd w) (hs : Selects w n readfds selected w') :
    Watched sockFd w' ∧ w'.calls = ⟨.pselect n readfds, selected⟩ :: w.calls := by
  obtain ⟨-, -, herror, hgot, rfl⟩ | ⟨hwaits, hgot, rfl⟩ := hs
  · have hf : ¬ Failed selected := fun hf => hf.2 herror
    refine ⟨⟨h.blocked, h.handler, h.sockFd, fun _ => .inr rfl, fun _ => ?_,
      prompt_cons h.prompt rfl ?_⟩, rfl⟩
    · exact ⟨n, readfds, selected, List.mem_cons_self, hgot, hf⟩
    · rintro _ _ _ ⟨⟩ -
      exact .inl hgot
  · refine ⟨⟨h.blocked, h.handler, h.sockFd, fun hm => h.kept (mem_record hm), fun hg => ?_,
      prompt_cons h.prompt rfl ?_⟩, rfl⟩
    · obtain ⟨n', readfds', selected', hm, hs⟩ := h.noticed hg
      exact ⟨n', readfds', selected', List.mem_cons_of_mem _ hm, hs⟩
    · rintro _ _ _ ⟨⟩ hm
      obtain hpending | hg := h.kept hm
      · exact .inr (hwaits hpending)
      · exact .inl (hgot.trans hg)

/-- What the main loop sees of the system. -/
theorem signalled_watched (w : World) (c : Call) (a : Answer c) (w' : World)
    (h : Watched sockFd w) (hs : restricted Sum.inr (fun _ a => a) signalled w c a w') :
    Watched sockFd w' ∧ recorded (Allowed sockFd) w.calls c a w'.calls := by
  obtain ⟨a', ⟨w₁, harrive, hs⟩, rfl⟩ := hs
  obtain ⟨h₁, hcalls⟩ := arrive_watched h harrive
  rw [← hcalls]
  cases c with
  | pselect n readfds =>
    obtain ⟨hallowed, hs⟩ := hs
    obtain ⟨h', hcalls'⟩ := selects_watched h₁ hs
    exact ⟨h', h₁.sockFd ▸ hallowed, hcalls'⟩
  | accept | read | send | close | stat | fopen | fread | ferror | fclose | staleNext =>
    obtain ⟨hallowed, rfl⟩ := hs
    exact ⟨record_watched h₁ (by rintro _ _ ⟨⟩), h₁.sockFd ▸ hallowed, rfl⟩

end watched

section setup

variable {w w₁ w' : World}

/-- Before the main loop SIGINT can only become pending. -/
structure Fresh (w : World) : Prop where
  calls : w.calls = []
  gotSigint : w.gotSigint = false
  kept : none ∈ w.log → w.pending = true
  handler : w.handler = true → w.blocked = true

theorem fresh_start : Fresh World.start := ⟨rfl, rfl, by rintro ⟨⟩, by rintro ⟨⟩⟩

theorem arrive_fresh (h : Fresh w) (ha : w₁ = w ∨ w.arrive = some w₁) :
    Fresh w₁ ∧ w₁.blocked = w.blocked ∧ w₁.handler = w.handler ∧ w₁.sockFd = w.sockFd := by
  obtain rfl | ha := ha
  · exact ⟨h, rfl, rfl, rfl⟩
  by_cases hb : w.blocked = true
  · obtain rfl := arrive_blocked hb ha
    exact ⟨⟨h.calls, h.gotSigint, fun _ => rfl, h.handler⟩, rfl, rfl, rfl⟩
  · rw [World.arrive, if_neg hb, if_neg (fun hh => hb (h.handler hh))] at ha
    cases ha

theorem fresh_prompt (h : Fresh w) : Prompt w := by
  intro late n readfds selected early hsplit _
  have hm : ⟨.pselect n readfds, selected⟩ ∈ w.calls :=
    List.mem_filterMap.mpr ⟨_, hsplit ▸ List.mem_append_right _ List.mem_cons_self, rfl⟩
  rw [h.calls] at hm
  cases hm

theorem fresh_watched (h : Fresh w) (hb : w.blocked = true) (hh : w.handler = true) :
    Watched w.sockFd w := by
  refine ⟨hb, hh, rfl, fun hm => .inl (h.kept hm), fun hg => ?_, fresh_prompt h⟩
  rw [h.gotSigint] at hg
  cases hg

/-- What has become of SIGINT by the end of a run. -/
structure Handled (o : Outcome Exit Unit) (w : World) : Prop where
  guarded : w.calls ≠ [] → w.blocked = true ∧ w.handler = true
  noticed : none ∈ w.log → w.pending = true ∨ Noticed w.sockFd o w.calls
  prompt : Prompt w
  ends : w.calls ≠ [] → Ends w.sockFd o w.calls

theorem fresh_handled (h : Fresh w) (o : Outcome Exit Unit) : Handled o w :=
  ⟨fun hc => absurd h.calls hc, fun hm => .inl (h.kept hm), fresh_prompt h,
    fun hc => absurd h.calls hc⟩

theorem ends_noticed {sockFd : Int} {o : Outcome Exit Unit} {h : History} (he : Ends sockFd o h)
    (hn : ∃ n readfds selected, ⟨.pselect n readfds, selected⟩ ∈ h ∧ selected.gotSigint = true ∧
      ¬ Failed selected) : Noticed sockFd o h := by
  obtain ⟨n, readfds, selected, hm, hg, hf⟩ := hn
  have hlate {early : History} (hu : Undisturbed early) :
      ⟨.pselect n readfds, selected⟩ ∉ early := fun hm => by
    rw [(hu n readfds selected hm).2] at hg
    cases hg
  cases he with
  | running hu _ => exact absurd hm (hlate hu)
  | @ending early late n' clients selected' hu hl hend =>
    have hm := List.mem_append.mp hm
    have hlast : selected'.gotSigint = true := by
      cases hend with
      | failed _ hfailed _ =>
        obtain hm | hm := hm
        · cases hm
        · obtain he | hm := List.mem_cons.mp hm
          · cases he
            exact absurd hfailed hf
          · exact absurd hm (hlate hu)
      | closing _ _ hg _ | closed _ _ hg _ => exact hg
    exact ⟨late, n', clients, selected', early, rfl, hlast, hu, hend⟩

/-- The main loop. -/
theorem serve_handled {sockFd : Int} (requestLine : RequestLine) (h : Fresh w)
    (hb : w.blocked = true) (hh : w.handler = true) (hsock : w.sockFd = sockFd) :
    Guarantees signalled (embed Sum.inr (fun _ a => a) id (serve sockFd requestLine) : Main Unit) w
      Handled := by
  subst hsock
  intro o w' hr
  obtain ⟨o, rfl, hserve⟩ := runs_embed hr
  obtain ⟨hw', hseen⟩ := runs_view signalled_watched (fresh_watched h hb hh) hserve
  rw [h.calls] at hseen
  have hends := serve_ends requestLine o _ hseen
  have ho : outcome id o = o := by cases o <;> rfl
  rw [ho]
  refine ⟨fun _ => ⟨hw'.blocked, hw'.handler⟩, fun hm => ?_, hw'.prompt, fun _ => ?_⟩
  · exact (hw'.kept hm).imp_right (fun hg => hw'.sockFd ▸ ends_noticed hends (hw'.noticed hg))
  · exact hw'.sockFd ▸ hends

/-- SIGINT is blocked and its handler is installed. -/
structure Ready (w : World) : Prop where
  fresh : Fresh w
  blocked : w.blocked = true
  handler : w.handler = true

theorem sigprocmask_fresh {a : Int} (h : Fresh w) (hs : signalled w (.inl .sigprocmask) a w') :
    Fresh w' ∧ (a ≠ -1 → w'.blocked = true) := by
  obtain ⟨w₁, harrive, ⟨rfl, rfl⟩ | ⟨rfl, rfl⟩⟩ := hs
  · exact ⟨(arrive_fresh h harrive).1, fun ha => absurd rfl ha⟩
  · obtain ⟨h₁, -⟩ := arrive_fresh h harrive
    exact ⟨⟨h₁.calls, h₁.gotSigint, h₁.kept, fun _ => rfl⟩, fun _ => rfl⟩

theorem sigaction_fresh {a : Int} (h : Fresh w) (hb : w.blocked = true)
    (hs : signalled w (.inl .sigaction) a w') : Fresh w' ∧ (a ≠ -1 → Ready w') := by
  obtain ⟨w₁, harrive, ⟨rfl, rfl⟩ | ⟨rfl, rfl⟩⟩ := hs
  · exact ⟨(arrive_fresh h harrive).1, fun ha => absurd rfl ha⟩
  · obtain ⟨h₁, hb₁, -⟩ := arrive_fresh h harrive
    have hb₁ := hb₁.trans hb
    have hf : Fresh { w₁ with handler := true } := ⟨h₁.calls, h₁.gotSigint, h₁.kept, fun _ => hb₁⟩
    exact ⟨hf, fun _ => ⟨hf, hb₁, rfl⟩⟩

theorem arrive_ready (h : Ready w) (ha : w₁ = w ∨ w.arrive = some w₁) :
    Ready w₁ ∧ w₁.sockFd = w.sockFd := by
  obtain ⟨h₁, hb, hh, hsock⟩ := arrive_fresh h.fresh ha
  exact ⟨⟨h₁, hb.trans h.blocked, hh.trans h.handler⟩, hsock⟩

theorem socket_ready {a : Int} (h : Ready w) (hs : signalled w (.inl .socket) a w') :
    Ready w' ∧ w'.sockFd = a := by
  obtain ⟨w₁, harrive, rfl⟩ := hs
  obtain ⟨⟨h₁, hb, hh⟩, -⟩ := arrive_ready h harrive
  exact ⟨⟨⟨h₁.calls, h₁.gotSigint, h₁.kept, h₁.handler⟩, hb, hh⟩, rfl⟩

theorem setup_handled {c : Setup} {k : SetupAnswer c → Main Unit} (h : Fresh w)
    (hk : ∀ a w', signalled w (.inl c) a w' → Guarantees signalled (k a) w' Handled) :
    Guarantees signalled (setup c >>= k) w Handled :=
  guarantees_call.mpr ⟨fresh_handled h _, hk⟩

theorem err_handled (h : Fresh w) (code : Nat) (message : Bytes) :
    Guarantees signalled (err code message) w Handled :=
  guarantees_halt.mpr ⟨fresh_handled h _, fresh_handled h _⟩

theorem main_handled (requestLine : RequestLine) (argv : List Bytes) :
    Guarantees signalled (main requestLine argv) World.start Handled := by
  rcases argv with - | ⟨_, - | ⟨addressText, - | ⟨portText, - | ⟨_, _⟩⟩⟩⟩
  · exact err_handled fresh_start _ _
  · exact err_handled fresh_start _ _
  · exact err_handled fresh_start _ _
  · refine setup_handled fresh_start (fun a w hs => ?_)
    obtain ⟨hfresh, hblocked⟩ := sigprocmask_fresh fresh_start hs
    split
    · exact err_handled hfresh _ _
    next ha =>
    refine setup_handled hfresh (fun a w hs => ?_)
    obtain ⟨hfresh, hready⟩ := sigaction_fresh hfresh (hblocked ha) hs
    split
    · exact err_handled hfresh _ _
    next ha =>
    refine setup_handled hfresh (fun sockFd w hs => ?_)
    obtain ⟨hready, hsock⟩ := socket_ready (hready ha) hs
    split
    · exact err_handled hready.fresh _ _
    refine setup_handled hready.fresh (fun found w₁ hs => ?_)
    obtain ⟨_, harrive, rfl⟩ := hs
    obtain ⟨hready, hsock₁⟩ := arrive_ready hready harrive
    cases found with
    | none => exact err_handled hready.fresh _ _
    | some address =>
      refine setup_handled hready.fresh (fun a w₂ hs => ?_)
      obtain ⟨_, harrive, rfl⟩ := hs
      obtain ⟨hready, hsock₂⟩ := arrive_ready hready harrive
      split
      · exact err_handled hready.fresh _ _
      refine setup_handled hready.fresh (fun a w₃ hs => ?_)
      obtain ⟨_, harrive, rfl⟩ := hs
      obtain ⟨hready, hsock₃⟩ := arrive_ready hready harrive
      split
      · exact err_handled hready.fresh _ _
      · exact serve_handled requestLine hready.fresh hready.blocked hready.handler
          (hsock₃.trans (hsock₂.trans (hsock₁.trans hsock)))
  · exact err_handled fresh_start _ _

/-- SIGINT is never lost and never kills the server outside its setup: from the first
`pselect` on it is blocked and has its handler, every SIGINT that has arrived is still pending
or has been noticed by the last `pselect`, which the closing of all clients and of the socket
follows, and no `pselect` waits once it has arrived. -/
theorem sigint_noticed {requestLine : RequestLine} {argv : List Bytes} {o : Outcome Exit Unit}
    (hr : Runs signalled (main requestLine argv) World.start o w) :
    (w.calls ≠ [] → w.blocked = true ∧ w.handler = true ∧ Ends w.sockFd o w.calls) ∧
      (none ∈ w.log → w.pending = true ∨ Noticed w.sockFd o w.calls) ∧ Prompt w := by
  have h := main_handled requestLine argv o w hr
  exact ⟨fun hc => ⟨(h.guarded hc).1, (h.guarded hc).2, h.ends hc⟩, h.noticed, h.prompt⟩

/-- SIGINT arrives after `listen`. -/
def interruptedWorld : World := ⟨true, true, false, true, 3,
  [some ⟨.close 3, (0 : Int)⟩, some ⟨.pselect 4 [3], interrupted⟩, none]⟩

def loopback : List Bytes := [ascii "http-server", ascii "::1", ascii "80"]

theorem interruptedWorld_runs : Runs signalled (main (Buffer.zeros _) loopback) World.start
    (.halted (.status exitOk [])) interruptedWorld := by
  let w₁ : World := { World.start with blocked := true }
  let w₂ : World := { w₁ with handler := true }
  let w₃ : World := { w₂ with sockFd := 3 }
  let w₄ : World := { w₃ with pending := true, log := [none] }
  let w₅ : World := World.record { w₄ with pending := false, gotSigint := true } (.pselect 4 [3])
    interrupted
  have hmask : signalled World.start (.inl .sigprocmask) (0 : Int) w₁ :=
    ⟨World.start, .inl rfl, .inr ⟨rfl, rfl⟩⟩
  have haction : signalled w₁ (.inl .sigaction) (0 : Int) w₂ := ⟨w₁, .inl rfl, .inr ⟨rfl, rfl⟩⟩
  have hsocket : signalled w₂ (.inl .socket) (3 : Int) w₃ := ⟨w₂, .inl rfl, rfl⟩
  have haddress : signalled w₃ (.inl (.inetPton (ascii "::1"))) (some (List.replicate 15 0 ++ [1]))
      w₃ := ⟨w₃, .inl rfl, rfl⟩
  have hbind (a : SockAddr) : signalled w₃ (.inl (.bind 3 a)) (0 : Int) w₃ := ⟨w₃, .inl rfl, rfl⟩
  have hlisten : signalled w₃ (.inl (.listen 3 backlogSize)) (0 : Int) w₃ := ⟨w₃, .inl rfl, rfl⟩
  have hallowed : Allowed 3 [] (.pselect 4 [3]) interrupted := fun herror => by cases herror
  have hselect : signalled w₃ (.inr (.pselect 4 [3])) interrupted w₅ :=
    ⟨w₄, .inr rfl, hallowed, .inl ⟨rfl, rfl, rfl, rfl, rfl⟩⟩
  have hclose : signalled w₅ (.inr (.close 3)) (0 : Int) interruptedWorld :=
    ⟨w₅, .inl rfl, trivial, rfl⟩
  refine runs_call hmask (runs_call haction (runs_call hsocket (runs_call haddress
    (runs_call (hbind _) (runs_call hlisten ?_)))))
  refine loop_halted (runs_call hselect (runs_call hclose ?_))
  exact runs_halt (e := Exit.status exitOk [])

theorem sigint_noticed_interrupted :
    Noticed 3 (.halted (.status exitOk [])) interruptedWorld.calls := by
  obtain ⟨-, hnoticed, -⟩ := sigint_noticed interruptedWorld_runs
  obtain hpending | hnoticed := hnoticed (List.mem_cons_of_mem _ (List.mem_cons_of_mem _
    List.mem_cons_self))
  · cases hpending
  · exact hnoticed

end setup

end Ti3.Http.Signals
