import Ti3.Http.Grammar
import Ti3.Library.Calls
import Ti3.Library.LexicalPath

namespace Ti3.Http.DocumentRoot

open Library.CString Library.CMemory Library.Interaction Library.Calls Library.LexicalPath
open Server RequestLine Response Grammar

-- The texts are known by their equations; evaluating them on the way is slow.
attribute [local irreducible] message header

/-- The string in the array once a request has been read. -/
def received (s : State) (bytes : Option Bytes) : Bytes :=
  (delivered s.requestLine (bytes.getD [])).takeWhile (· ≠ 0)

/-- The path in a request: what stands between the first slash and the next
blank of its line, and `index.html` when nothing does. -/
def Asked (request path : Bytes) : Prop :=
  ∃ line behind between uri ending, request = line ++ newline :: behind ∧ newline ∉ line ∧
    Passes line between uri ending ∧ path = fileFor uri

/-- The paths by which files are reached. -/
def Reaching (P : Bytes → Prop) : Call → Prop
  | .stat path | .fopen path => P path
  | _ => True

/-- A relative path to a place in the working directory. -/
def Inside (cwd : List Bytes) (path : Bytes) : Prop :=
  path.head? ≠ some separator ∧ cwd <+: resolve cwd path

/-- The names by which a path comes back are those of the directories that it
has left upwards. -/
def ComesBack (cwd : List Bytes) (path : Bytes) : Prop :=
  cwd.drop (cwd.length - (normal (components path)).climbs) <+: (normal (components path)).names

theorem inside_iff {cwd : List Bytes} {path : Bytes} :
    Inside cwd path ↔ path.head? ≠ some separator ∧ ComesBack cwd path := by
  refine and_congr_right (fun h => ?_)
  rw [resolve, if_neg h, prefix_walk, ComesBack]

theorem asked_iff {request path : Bytes} :
    Asked request path ↔ stringRequest request = some (.accepted path) := by
  rw [stringRequest]
  cases hn : cut newline request with
  | none =>
    refine iff_of_false ?_ (by rintro ⟨⟩)
    rintro ⟨line, behind, _, _, _, rfl, _⟩
    exact cut_eq_none.mp hn (by simp)
  | some p =>
    obtain ⟨line, behind⟩ := p
    obtain ⟨rfl, hl⟩ := cut_eq_some.mp hn
    rw [accepted_line]
    constructor
    · rintro ⟨line', behind', between, uri, ending, he, hl', hp, hu⟩
      rw [he, cut_append hl'] at hn
      cases hn
      exact ⟨between, uri, ending, hp, hu⟩
    · rintro ⟨between, uri, ending, hp, hu⟩
      exact ⟨line, behind, between, uri, ending, rfl, hl, hp, hu⟩

variable {P : Bytes → Prop} {s : State} {fd : Int} {bytes : Option Bytes}

theorem respond_reaching {status : Status} : OnlyCalls (Reaching P) (respond status fd) := by
  rw [respond_eq]
  exact ⟨trivial, fun _ => ⟨trivial, fun _ => trivial⟩⟩

theorem transferStep_reaching {infile : Nat} (u : Unit) :
    OnlyCalls (Reaching P) (transferStep fd infile u) := by
  simp only [transferStep, fread, send, library, ask_bind, Program.pure_eq, onlyCalls_call]
  refine ⟨trivial, fun buf => ?_⟩
  split
  · trivial
  · exact ⟨trivial, fun _ => trivial⟩

theorem respondIf_reaching {failed : Bool} {status : Status} :
    OnlyCalls (Reaching P) (respondIf failed status fd) := by
  cases failed with
  | false => trivial
  | true => exact respond_reaching

theorem sendFile_reaching {served : Served} (h : P served.uri) :
    OnlyCalls (Reaching P) (sendFile fd served) := by
  rw [sendFile]
  cases header served.mimeType served.size with
  | none => trivial
  | some header =>
    simp only [access, send, fopen, library, ask_bind, Program.pure_eq, Program.done_bind,
      onlyCalls_call]
    refine ⟨trivial, fun sent => ?_⟩
    split
    · trivial
    · refine ⟨h, fun opened => ?_⟩
      cases opened with
      | error e => cases e <;> exact respond_reaching
      | ok infile =>
        refine ⟨transferStep_reaching, fun _ => ⟨trivial, fun failed => ?_⟩⟩
        exact onlyCalls_bind (p := respondIf failed .status500 fd) respondIf_reaching
          (fun _ => ⟨trivial, fun _ => ⟨trivial, fun _ => trivial⟩⟩)

theorem closeIf_reaching {α : Type} {failed : Bool} {k : Process α} :
    OnlyCalls (Reaching P) (do closeIf failed fd; k) ↔ OnlyCalls (Reaching P) k := by
  cases failed with
  | false => exact Iff.rfl
  | true => exact ⟨fun h => h.2 0, fun h => ⟨trivial, fun _ => h⟩⟩

/-- The path that is looked for is also the one that is opened. -/
theorem serveRead_reaching (hb : (bytes.getD []).length ≤ maxRequestLineLen) :
    OnlyCalls (Reaching P) (serveRead s fd bytes) ↔
      ∀ path, Asked (received s bytes) path → P path := by
  obtain ⟨m, hm, _⟩ : ∃ m, readInto s.requestLine _ = some m ∧ _ := readInto_eq hb
  have hp : (parseRequest m).map Prod.snd = stringRequest (received s bytes) := parse_readInto hb hm
  simp only [asked_iff, ← hp]
  rw [serveRead, closeIf_reaching]
  simp only [hm, access, Program.pure_eq, Program.done_bind, handleRequest]
  cases parseRequest m with
  | none => exact iff_of_true trivial (fun _ h => by cases h)
  | some r =>
    obtain ⟨m', request⟩ := r
    simp only [Program.done_bind, Option.map_some, Option.some.injEq]
    cases request with
    | rejected status =>
      simp only [Program.done_bind, bind_assoc]
      exact iff_of_true (onlyCalls_bind respond_reaching fun _ => trivial)
        (fun _ h => by cases h)
    | accepted uri =>
      simp only [stat, library, ask_bind, Program.call_bind, onlyCalls_call,
        Request.accepted.injEq, forall_eq']
      refine ⟨fun h => h.1, fun h => ⟨h, fun found => ?_⟩⟩
      have hreject (status : Status) : OnlyCalls (Reaching P) (do
          respond status fd
          .done { s with
            clientFds := s.clientFds.remove fd
            clientCnt := s.clientCnt - 1
            requestLine := m' }) := onlyCalls_bind respond_reaching fun _ => trivial
      cases found with
      | error e => cases e <;> simpa only [bind_assoc, Program.done_bind] using hreject _
      | ok size =>
        cases guessMimeType uri with
        | none => trivial
        | some known =>
          cases known with
          | none => simpa only [bind_assoc, Program.done_bind] using hreject _
          | some mimeType =>
            have hsend := @sendFile_reaching P fd ⟨uri, mimeType, size⟩ h
            simp only [Program.done_bind]
            -- The target would be evaluated if it still held the program.
            generalize sendFile fd ⟨uri, mimeType, size⟩ = p at hsend ⊢
            exact onlyCalls_bind hsend fun _ => trivial

/-- Files are reached by the very paths that are asked for. They are all in the
working directory if these are relative and come back from where they go up. -/
theorem reached_iff {cwd : List Bytes} (hb : (bytes.getD []).length ≤ maxRequestLineLen) :
    OnlyCalls (Reaching (Asked (received s bytes))) (serveRead s fd bytes) ∧
      (OnlyCalls (Reaching (Inside cwd)) (serveRead s fd bytes) ↔
        ∀ path, Asked (received s bytes) path →
          path.head? ≠ some separator ∧ ComesBack cwd path) := by
  refine ⟨(serveRead_reaching hb).mpr fun _ h => h, ?_⟩
  rw [serveRead_reaching hb]
  exact forall₂_congr fun path _ => inside_iff

theorem reached_iff_gif :
    OnlyCalls (Reaching (Asked (received (State.start 3 (Buffer.zeros _))
        (some (ascii "GET /a.gif HTTP/1.0\n")))))
      (serveRead (State.start 3 (Buffer.zeros _)) 5 (some (ascii "GET /a.gif HTTP/1.0\n"))) ∧
    (OnlyCalls (Reaching (Inside [ascii "www"]))
      (serveRead (State.start 3 (Buffer.zeros _)) 5 (some (ascii "GET /a.gif HTTP/1.0\n"))) ↔
      ∀ path, Asked (received (State.start 3 (Buffer.zeros _))
        (some (ascii "GET /a.gif HTTP/1.0\n"))) path →
        path.head? ≠ some separator ∧ ComesBack [ascii "www"] path) :=
  reached_iff (by decide)

/-- A path that goes up is followed. -/
theorem outside_reached : ¬ ∀ (cwd : List Bytes) (s : State) (fd : Int) (bytes : Option Bytes),
    (bytes.getD []).length ≤ maxRequestLineLen →
      OnlyCalls (Reaching (Inside cwd)) (serveRead s fd bytes) := by
  intro h
  have hr := (serveRead_reaching (by decide)).mp (h [ascii "www"] (State.start 3 (Buffer.zeros _)) 5
    (some (ascii "GET /../a.gif HTTP/1.0\n")) (by decide))
  have hi := hr (ascii "../a.gif") (asked_iff.mpr (by decide +kernel))
  have hout : ¬ [ascii "www"] <+: resolve [ascii "www"] (ascii "../a.gif") := by decide +kernel
  exact hout hi.2

end Ti3.Http.DocumentRoot
