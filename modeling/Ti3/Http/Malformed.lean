import Ti3.Http.RequestLine
import Ti3.Http.Response
import Ti3.Library.Rules

namespace Ti3.Http.Malformed

open Library.CString Library.CMemory Library.Interaction Library.Rules
open Server RequestLine Response

/-- Any answers, apart from a given one of `stat`. -/
def answering (found : Except Errno Int) : Environment Call Answer Unit :=
  fun _ c a _ => match c, a with
    | .stat _, a => a = found
    | _, _ => True

/-- No invalid access while a request that `read` delivered into an empty
buffer is handled. -/
def NoFault (clientFd : Int) (b : Bytes) (found : Except Errno Int) : Prop :=
  ∀ m, readInto (Buffer.zeros _) b = some m →
    Guarantees (answering found) (handleRequest clientFd m) () (fun o _ => o ≠ .halted .fault)

/-- Behind the slash: a blank, a dot behind the blank, and a dot in the name of
a file that is found. -/
def TargetSeparated (target : Bytes) (found : Prop) : Prop :=
  ∃ uri version, target = uri ++ blank :: version ∧ blank ∉ uri ∧ dot ∈ version ∧
    (ascii "HTTP/1.0" <+: version → found → uri = [] ∨ dot ∈ uri)

/-- In a line: a slash that does not come first, and in a GET request what has
to follow it. -/
def LineSeparated (line : Bytes) (found : Prop) : Prop :=
  ∃ method target, line = method ++ slash :: target ∧ slash ∉ method ∧ method ≠ [] ∧
    (method.dropLast = ascii "GET" → TargetSeparated target found)

/-- The separators that the parser takes for granted are there, if there is a
whole line. -/
def Separated (s : Bytes) (found : Prop) : Prop :=
  ∀ line rest, s = line ++ newline :: rest → newline ∉ line → LineSeparated line found

/-- There is an answer, and a file that is found has a dot in its name. -/
def Answered (request : Option Request) (found : Prop) : Prop :=
  ∃ r, request = some r ∧ ∀ uri, r = .accepted uri → found → dot ∈ uri

variable {found : Prop}

theorem answered_rejected {status : Status} : Answered (some (.rejected status)) found :=
  ⟨_, rfl, fun _ h => by cases h⟩

theorem answered_accepted {uri : Bytes} :
    Answered (some (.accepted uri)) found ↔ (found → dot ∈ uri) := by
  constructor
  · rintro ⟨r, hr, h⟩
    cases hr
    exact h uri rfl
  · intro h
    refine ⟨_, rfl, fun uri' he hf => ?_⟩
    cases he
    exact h hf

theorem not_answered_none : ¬ Answered none found := fun ⟨_, h, _⟩ => by cases h

theorem dot_mem_fileFor {uri : Bytes} : dot ∈ fileFor uri ↔ uri = [] ∨ dot ∈ uri := by
  by_cases he : uri = []
  · simp only [fileFor, he, if_true, true_or, iff_true]
    decide
  · simp [fileFor, he]

theorem version_iff {major minor : Bytes} (hd : dot ∉ major) :
    major ++ dot :: minor.take 1 = ascii "HTTP/1.0" ↔
      ascii "HTTP/1.0" <+: major ++ dot :: minor := by
  constructor
  · intro h
    refine ⟨minor.drop 1, ?_⟩
    rw [← h, List.append_assoc, List.cons_append, List.take_append_drop]
  · rintro ⟨rest, h⟩
    have hcut : cut dot (ascii "HTTP/1.0" ++ rest) = some (ascii "HTTP/1", 48 :: rest) :=
      cut_append (u := ascii "HTTP/1") (by decide)
    rw [h, cut_append hd] at hcut
    cases hcut
    rfl

theorem answered_target {target : Bytes} :
    Answered (targetRequest target) found ↔ TargetSeparated target found := by
  rw [targetRequest, TargetSeparated]
  simp only [← and_assoc, ← cut_eq_some]
  cases hb : cut blank target with
  | none => simp [not_answered_none]
  | some p =>
    obtain ⟨uri, version⟩ := p
    cases hd : cut dot version with
    | none => simp [hd, not_answered_none, cut_eq_none.mp hd]
    | some p =>
      obtain ⟨major, minor⟩ := p
      obtain ⟨rfl, hm⟩ := cut_eq_some.mp hd
      simp only [hd, version_iff hm]
      by_cases hv : ascii "HTTP/1.0" <+: major ++ dot :: minor
      · simp [hv, answered_accepted, dot_mem_fileFor]
      · simp [hv, answered_rejected]

theorem answered_line {line : Bytes} :
    Answered (lineRequest line) found ↔ LineSeparated line found := by
  rw [lineRequest, LineSeparated]
  simp only [← and_assoc, ← cut_eq_some]
  cases hs : cut slash line with
  | none => simp [not_answered_none]
  | some p =>
    obtain ⟨method, target⟩ := p
    by_cases he : method = []
    · simp [he, not_answered_none]
    · by_cases hg : method.dropLast = ascii "GET"
      · simp [he, hg, answered_target]
      · simp [he, hg, answered_rejected]

theorem answered_string {s : Bytes} :
    Answered (stringRequest s) found ↔ Separated s found := by
  rw [stringRequest, Separated]
  simp only [← and_imp, ← cut_eq_some]
  cases hn : cut newline s with
  | none => simp [answered_rejected]
  | some p =>
    obtain ⟨line, rest⟩ := p
    simp [answered_line]

theorem guarantees_stat {α : Type} {f : Except Errno Int} {uri : Bytes}
    {k : Except Errno Int → Process α} {P : Outcome Exit α → Unit → Prop} (hc : P .cut ()) :
    Guarantees (answering f) (.call (.stat uri) k) () P ↔ Guarantees (answering f) (k f) () P := by
  rw [guarantees_call]
  constructor
  · rintro ⟨_, h⟩
    exact h f () rfl
  · intro h
    refine ⟨hc, ?_⟩
    rintro a w rfl
    exact h

theorem noFault_handleRequest (clientFd : Int) {m : RequestLine} {f : Except Errno Int} :
    Guarantees (answering f) (handleRequest clientFd m) () (fun o _ => o ≠ .halted .fault) ↔
      Answered ((parseRequest m).map Prod.snd) (∃ size, f = .ok size) := by
  rw [handleRequest]
  cases hp : parseRequest m with
  | none => simp [access, not_answered_none]
  | some p =>
    obtain ⟨m, request⟩ := p
    cases request with
    | rejected status =>
      simp [access, respond_eq, answered_rejected]
    | accepted uri =>
      simp only [access, stat, library, Program.pure_eq, Program.done_bind, ask_bind,
        Option.map_some, answered_accepted]
      rw [guarantees_stat nofun]
      cases f with
      | error e => cases e <;> simp [respond_eq]
      | ok size =>
        cases hg : guessMimeType uri with
        | none => simp [guessMimeType_eq_none.mp hg]
        | some t =>
          have hd : dot ∈ uri := by
            by_contra hd
            rw [guessMimeType_eq_none.mpr hd] at hg
            cases hg
          cases t <;> simp [hd, respond_eq]

theorem noFault_iff_answered {clientFd : Int} {b : Bytes} {f : Except Errno Int}
    (hb : b.length ≤ maxRequestLineLen) : NoFault clientFd b f ↔
      Answered (stringRequest (b.takeWhile (· ≠ 0))) (∃ size, f = .ok size) := by
  obtain ⟨m, hm, _⟩ : ∃ m, readInto (Buffer.zeros _) b = some m ∧ _ := readInto_eq hb
  have hp := parse_readInto hb hm
  have hz : delivered (Buffer.zeros _) b =
      b ++ List.replicate (maxRequestLineLen - b.length) 0 := by
    simp [delivered, Buffer.zeros]
  rw [hz, takeWhile_padded] at hp
  rw [← hp, ← noFault_handleRequest clientFd]
  refine ⟨fun h => ?_, fun h m' hm' => ?_⟩
  · exact h m hm
  · cases hm.symm.trans hm'
    exact h

/-- The handling of a request survives what `read` delivers exactly when the
separators are there. -/
theorem noFault_iff_separated {clientFd : Int} {b : Bytes} {f : Except Errno Int}
    (hb : b.length ≤ maxRequestLineLen) :
    NoFault clientFd b f ↔ Separated (b.takeWhile (· ≠ 0)) (∃ size, f = .ok size) := by
  rw [noFault_iff_answered hb, answered_string]

theorem noFault_iff_separated_get : NoFault 5 (ascii "GET /\n") (.error .enoent) ↔
    Separated ((ascii "GET /\n").takeWhile (· ≠ 0))
      (∃ size, (.error .enoent : Except Errno Int) = .ok size) :=
  noFault_iff_separated (by decide)

theorem newline_faults : ¬ ∀ (clientFd : Int) (b : Bytes) (f : Except Errno Int),
    1 ≤ b.length → b.length ≤ maxRequestLineLen → NoFault clientFd b f := by
  intro h
  have hf := h 5 (ascii "\n") (.error .enoent) (by decide) (by decide)
  rw [noFault_iff_answered (by decide)] at hf
  exact not_answered_none hf

end Ti3.Http.Malformed
