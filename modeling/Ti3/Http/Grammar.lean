import Ti3.Http.Invariants
import Ti3.Http.Malformed

namespace Ti3.Http.Grammar

open Library.CString Library.CMemory Library.Interaction
open Server RequestLine Response Invariants Malformed

def carriageReturn : UInt8 := 13

/-- A request line, given without its newline, by which a file is to be served. -/
def WellFormed (line : Bytes) : Prop :=
  ∃ uri ending, line = ascii "GET /" ++ uri ++ ascii " HTTP/1.0" ++ ending ∧ blank ∉ uri ∧
    (ending = [] ∨ ending = [carriageReturn])

/-- The separators that the parser takes for granted. -/
def HasSeparators (line : Bytes) : Prop :=
  ∃ method target, line = method ++ slash :: target ∧ slash ∉ method ∧ method ≠ [] ∧
    (method.dropLast = ascii "GET" →
      ∃ uri version, target = uri ++ blank :: version ∧ blank ∉ uri ∧ dot ∈ version)

/-- A line with some byte between the method and the slash, and something behind
the version. -/
def Passes (line : Bytes) (between : UInt8) (uri ending : Bytes) : Prop :=
  line = ascii "GET" ++ between :: slash :: (uri ++ blank :: (ascii "HTTP/1.0" ++ ending)) ∧
    between ≠ slash ∧ blank ∉ uri

/-- Where the bytes next to the cuts are erased, only those may stand that
belong there. -/
def Clean (line : Bytes) : Prop :=
  ∀ between uri ending, Passes line between uri ending →
    between = blank ∧ (ending = [] ∨ ending = [carriageReturn])

theorem hasSeparators_iff {line : Bytes} : HasSeparators line ↔ lineRequest line ≠ none := by
  have hanswered : lineRequest line ≠ none ↔ Answered (lineRequest line) False := by
    rw [Answered, Option.ne_none_iff_exists']
    exact exists_congr (fun r => ⟨fun h => ⟨h, nofun⟩, fun h => h.1⟩)
  rw [hanswered, answered_line]
  simp [HasSeparators, LineSeparated, TargetSeparated]

theorem version_passes {version : Bytes} :
    (∃ major minor, cut dot version = some (major, minor) ∧
      major ++ dot :: minor.take 1 = ascii "HTTP/1.0") ↔ ascii "HTTP/1.0" <+: version := by
  constructor
  · rintro ⟨major, minor, hd, hv⟩
    obtain ⟨rfl, hm⟩ := cut_eq_some.mp hd
    exact (version_iff hm).mp hv
  · rintro ⟨ending, rfl⟩
    have hd : dot ∉ ascii "HTTP/1" := by decide
    exact ⟨ascii "HTTP/1", 48 :: ending, cut_append hd, (version_iff hd).mpr ⟨ending, rfl⟩⟩

theorem accepted_target {target uri : Bytes} :
    targetRequest target = some (.accepted uri) ↔ ∃ name ending,
      target = name ++ blank :: (ascii "HTTP/1.0" ++ ending) ∧ blank ∉ name ∧
        uri = fileFor name := by
  constructor
  · intro h
    rw [targetRequest] at h
    split at h
    · cases h
    · next name version hb =>
      split at h
      · cases h
      · next major minor hd =>
        split at h
        · next hv =>
          obtain ⟨ending, rfl⟩ := version_passes.mp ⟨major, minor, hd, hv⟩
          obtain ⟨rfl, hn⟩ := cut_eq_some.mp hb
          cases h
          exact ⟨name, ending, rfl, hn, rfl⟩
        · cases h
  · rintro ⟨name, ending, rfl, hn, rfl⟩
    obtain ⟨major, minor, hd, hv⟩ := version_passes.mpr ⟨ending, rfl⟩
    simp only [targetRequest, cut_append hn, hd, hv, if_true]

/-- What slips through: any byte before the slash, and anything behind the
version. -/
theorem accepted_line {line uri : Bytes} :
    lineRequest line = some (.accepted uri) ↔
      ∃ between name ending, Passes line between name ending ∧ uri = fileFor name := by
  constructor
  · intro h
    rw [lineRequest] at h
    split at h
    · cases h
    · next method target hs =>
      obtain ⟨rfl, hm⟩ := cut_eq_some.mp hs
      split_ifs at h with he hg
      · obtain ⟨name, ending, rfl, hn, rfl⟩ := accepted_target.mp h
        have hsplit : ascii "GET" ++ [method.getLast he] = method := by
          rw [← hg, List.dropLast_concat_getLast]
        refine ⟨method.getLast he, name, ending, ⟨?_, ?_, hn⟩, rfl⟩
        · rw [List.append_cons (ascii "GET"), hsplit]
        · exact fun hb => hm (hb ▸ List.getLast_mem he)
      · cases h
  · rintro ⟨between, name, ending, ⟨rfl, hb, hn⟩, rfl⟩
    have hm : slash ∉ ascii "GET" ++ [between] := by
      rw [List.mem_append, List.mem_singleton]
      exact not_or.mpr ⟨by decide, hb.symm⟩
    have hne : ascii "GET" ++ [between] ≠ [] :=
      List.append_ne_nil_of_right_ne_nil _ (List.cons_ne_nil _ _)
    rw [List.append_cons, lineRequest, cut_append hm]
    simp only [hne, if_false, List.dropLast_concat, if_true]
    exact accepted_target.mpr ⟨name, ending, rfl, hn, rfl⟩

theorem wellFormed_iff {line : Bytes} : WellFormed line ↔
    ∃ uri ending, Passes line blank uri ending ∧ (ending = [] ∨ ending = [carriageReturn]) := by
  have hline (uri ending : Bytes) : ascii "GET /" ++ uri ++ ascii " HTTP/1.0" ++ ending =
      ascii "GET" ++ blank :: slash :: (uri ++ blank :: (ascii "HTTP/1.0" ++ ending)) := by
    rw [List.append_assoc, List.append_assoc]
    rfl
  have hb : blank ≠ slash := by decide
  simp only [WellFormed, Passes, hline, ne_eq, hb, not_false_eq_true, true_and, and_assoc]

theorem passes_unique {line uri uri' ending ending' : Bytes} {between between' : UInt8}
    (h : Passes line between uri ending) (h' : Passes line between' uri' ending') :
    between = between' ∧ ending = ending' := by
  obtain ⟨rfl, _, hu⟩ := h
  obtain ⟨he, _, hu'⟩ := h'
  obtain ⟨hb, ht⟩ := List.cons.inj (List.append_cancel_left he)
  have hcut := cut_append (v := ascii "HTTP/1.0" ++ ending) hu
  rw [(List.cons.inj ht).2, cut_append hu'] at hcut
  cases hcut
  exact ⟨hb, rfl⟩

theorem clean_iff {line : Bytes} :
    Clean line ↔ ∀ uri, lineRequest line = some (.accepted uri) → WellFormed line := by
  simp only [accepted_line, wellFormed_iff]
  constructor
  · rintro h _ ⟨between, name, ending, hp, _⟩
    obtain ⟨rfl, he⟩ := h between name ending hp
    exact ⟨name, ending, hp, he⟩
  · intro h between name ending hp
    obtain ⟨name', ending', hp', he⟩ := h _ ⟨between, name, ending, hp, rfl⟩
    obtain ⟨rfl, rfl⟩ := passes_unique hp hp'
    exact ⟨rfl, he⟩

theorem wellFormed_accepted {line : Bytes} (h : WellFormed line) :
    ∃ uri, lineRequest line = some (.accepted uri) := by
  obtain ⟨uri, ending, hp, _⟩ := wellFormed_iff.mp h
  exact ⟨_, accepted_line.mpr ⟨blank, uri, ending, hp, rfl⟩⟩

/-- The server goes on to serve a file. -/
def ReachesStat (p : Process State) : Prop := ∃ uri k, p = .call (.stat uri) k

/-- The client gets an error response, and nothing else is done. -/
def Refused (clientFd : Int) (p : Process State) : Prop :=
  ∃ status s, p = (do respond status clientFd; return s)

/-- A file is served for the lines of the grammar, and all others are refused. -/
structure Judged (clientFd : Int) (line : Bytes) (p : Process State) : Prop where
  served : ReachesStat p ↔ WellFormed line
  refused : ¬ WellFormed line → Refused clientFd p

variable {s : State} {fd : Int} {line behind : Bytes} {request : Request}

/-- The bytes behind the newline do not matter. -/
theorem stringRequest_line {old : RequestLine} (hzero : 0 ∉ line) (hnewline : newline ∉ line) :
    stringRequest ((delivered old (line ++ newline :: behind)).takeWhile (· ≠ 0)) =
      lineRequest line := by
  have hne : newline ≠ 0 := by decide
  rw [delivered, List.append_assoc, takeWhile_behind hzero, List.cons_append]
  simp [stringRequest, hne, cut_append hnewline]

/-- What is done once the line has been read is decided by what is made of it. -/
theorem serveRead_line (s : State) (fd : Int)
    (hlen : (line ++ newline :: behind).length ≤ maxRequestLineLen)
    (hzero : 0 ∉ line) (hnewline : newline ∉ line) :
    match lineRequest line with
    | none => serveRead s fd (some (line ++ newline :: behind)) = .halt .fault
    | some (.accepted uri) =>
      ∃ k, serveRead s fd (some (line ++ newline :: behind)) = .call (.stat uri) k
    | some (.rejected status) => ∃ s',
      serveRead s fd (some (line ++ newline :: behind)) = (do respond status fd; return s') := by
  obtain ⟨m, hm, _⟩ : ∃ m, readInto s.requestLine _ = some m ∧ _ := readInto_eq hlen
  have hp := parse_readInto hlen hm
  rw [stringRequest_line hzero hnewline] at hp
  rw [← hp, serveRead_eq fd hm]
  cases hr : parseRequest m with
  | none =>
    rw [handleRequest, hr]
    rfl
  | some r =>
    obtain ⟨m', request⟩ := r
    cases request with
    | rejected status =>
      rw [handleRequest_rejected fd hr, bind_assoc]
      exact ⟨_, rfl⟩
    | accepted uri =>
      rw [handleRequest, hr]
      exact ⟨_, rfl⟩

theorem not_reachesStat {status : Status} {s : State} :
    ¬ ReachesStat (do respond status fd; return s) := by
  rintro ⟨uri, k, he⟩
  rw [respond_eq] at he
  cases he

theorem judged_of_request (hlen : (line ++ newline :: behind).length ≤ maxRequestLineLen)
    (hzero : 0 ∉ line) (hnewline : newline ∉ line) :
    Judged fd line (serveRead s fd (some (line ++ newline :: behind))) ↔ lineRequest line ≠ none ∧
      ∀ uri, lineRequest line = some (.accepted uri) → WellFormed line := by
  have hp := serveRead_line s fd hlen hzero hnewline
  have hw : WellFormed line → ∃ uri, lineRequest line = some (.accepted uri) := wellFormed_accepted
  cases hr : lineRequest line with
  | none =>
    rw [hr] at hp hw
    have hn : ¬ WellFormed line := mt hw nofun
    refine ⟨fun h => ?_, fun h => absurd rfl h.1⟩
    obtain ⟨status, s', he⟩ := h.refused hn
    rw [hp, respond_eq] at he
    cases he
  | some request =>
    rw [hr] at hp hw
    cases request with
    | accepted uri =>
      obtain ⟨k, hk⟩ := hp
      rw [hk]
      refine ⟨fun h => ⟨nofun, fun _ _ => h.served.mp ⟨_, _, rfl⟩⟩, fun ⟨_, h⟩ => ?_⟩
      have hline : WellFormed line := h uri rfl
      exact ⟨iff_of_true ⟨_, _, rfl⟩ hline, fun hn => absurd hline hn⟩
    | rejected status =>
      obtain ⟨s', hs⟩ := hp
      have hn : ¬ WellFormed line := mt hw nofun
      rw [hs]
      refine iff_of_true ⟨iff_of_false not_reachesStat hn, fun _ => ?_⟩ ⟨nofun, nofun⟩
      exact ⟨status, s', rfl⟩

/-- The server keeps to the grammar on the lines that have their separators and
are clean beside them. -/
theorem judged_iff (hlen : (line ++ newline :: behind).length ≤ maxRequestLineLen)
    (hzero : 0 ∉ line) (hnewline : newline ∉ line) :
    Judged fd line (serveRead s fd (some (line ++ newline :: behind))) ↔
      HasSeparators line ∧ Clean line := by
  rw [judged_of_request hlen hzero hnewline, hasSeparators_iff, clean_iff]

theorem judged_iff_get : Judged 5 (ascii "GET /a.gif HTTP/1.0")
    (serveRead (State.start 3 (Buffer.zeros _)) 5
      (some (ascii "GET /a.gif HTTP/1.0" ++ [newline]))) ↔
    HasSeparators (ascii "GET /a.gif HTTP/1.0") ∧ Clean (ascii "GET /a.gif HTTP/1.0") :=
  judged_iff (by decide) (by decide) (by decide)

/-- A file is served although a letter stands in the place of the blank. -/
theorem misspelt_served : ¬ ∀ (s : State) (fd : Int) (line : Bytes),
    s.requestLine = Buffer.zeros _ → line.length ≤ 499 → 0 ∉ line → newline ∉ line →
      Judged fd line (serveRead s fd (some (line ++ [newline]))) := by
  intro h
  have hj := h (State.start 3 (Buffer.zeros _)) 5 (ascii "GETX/a.gif HTTP/1.0") rfl (by decide)
    (by decide) (by decide)
  have hc := ((judged_of_request (by decide) (by decide) (by decide)).mp hj).2
  obtain ⟨hx, _⟩ := clean_iff.mpr hc 88 (ascii "a.gif") [] ⟨by decide, by decide, by decide⟩
  exact absurd hx (by decide)

end Ti3.Http.Grammar
