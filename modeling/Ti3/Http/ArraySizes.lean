import Ti3.Http.Malformed
import Ti3.Library.Calls

namespace Ti3.Http.ArraySizes

open Library.CString Library.CMemory Library.Interaction Library.Rules Library.Calls
open Server RequestLine Response Malformed

-- The texts are known by their equations; evaluating them on the way is slow.
attribute [local irreducible] message header

/-- What is stored for a file in `mime_type` and in `header` fits there together with
the terminating zeros, and the file is sent without an invalid access. -/
structure FileFits (uri mimeType : Bytes) (stSize : Int64) : Prop where
  mime : mimeType.length + 1 ≤ maxMimeLen + 1
  header : (headerText mimeType stSize.toInt).length + 1 ≤ headerLen + 1
  written : Server.header mimeType stSize.toInt = some (headerText mimeType stSize.toInt)
  sent : ∀ clientFd, OnlyHalts (· ≠ .fault) (sendFile clientFd ⟨uri, mimeType, stSize.toInt⟩)

/-- The text of an error response leaves room for nothing but the terminating zero. -/
def MessageFits (statusMsg : Bytes) : Prop :=
  ∃ text, message statusMsg = some (text ++ [0]) ∧ 0 ∉ text ∧ text.length = msgLen statusMsg

/-- The length of the response is an `int`, and the response is sent without an invalid
access. -/
structure Responds (status : Status) : Prop where
  length : msgLen status.msg + 1 < 2 ^ 31
  sent : ∀ clientFd, OnlyHalts (· ≠ .fault) (respond status clientFd)

/-- `st_size` is a 64-bit number. -/
def Sized {σ : Type} (env : Environment Call Answer σ) : Prop :=
  ∀ w path size w', env w (.stat path) (.ok size) w' → ∃ stSize : Int64, size = stSize.toInt

/-- No run ends with an invalid access. -/
abbrev Survives {α σ : Type} (env : Environment Call Answer σ) (p : Process α) (w : σ) : Prop :=
  Guarantees env p w (fun o _ => o ≠ .halted .fault)

variable {clientFd : Int} {uri mimeType statusMsg : Bytes} {served : Served}

theorem respond_survives (status : Status) (clientFd : Int) :
    OnlyHalts (· ≠ .fault) (respond status clientFd) := by
  rw [respond_eq]
  exact fun _ _ => trivial

theorem transferStep_survives (infile : Nat) (u : Unit) :
    OnlyHalts (· ≠ .fault) (transferStep clientFd infile u) := by
  refine onlyHalts_bind (p := fread infile bufsize) (fun _ => trivial) (fun buf => ?_)
  split
  · trivial
  · exact fun _ => trivial

theorem respondIf_survives (failed : Bool) (status : Status) :
    OnlyHalts (· ≠ .fault) (respondIf failed status clientFd) := by
  cases failed with
  | false => trivial
  | true => exact respond_survives status clientFd

theorem sendFile_survives {head : Bytes} (h : header served.mimeType served.size = some head)
    (clientFd : Int) : OnlyHalts (· ≠ .fault) (sendFile clientFd served) := by
  rw [sendFile, h]
  refine onlyHalts_bind (p := send clientFd .header head) (fun _ => trivial) (fun sent => ?_)
  split
  · trivial
  · refine onlyHalts_bind (p := fopen served.uri) (fun _ => trivial) (fun found => ?_)
    cases found with
    | error e => cases e <;> exact respond_survives _ _
    | ok infile =>
      refine ⟨transferStep_survives infile, fun _ => ?_⟩
      refine onlyHalts_bind (p := ferror infile) (fun _ => trivial) (fun failed => ?_)
      exact onlyHalts_bind (respondIf_survives failed _) (fun _ _ _ => trivial)

/-- The sign and the digits of every 64-bit number. -/
theorem decimal_stSize (stSize : Int64) : (decimal stSize.toInt).length ≤ 20 := by
  have hl := stSize.le_toInt
  have hu := stSize.toInt_lt
  exact decimal_length_signed (k := 19) (by decide) (by omega) (by omega)

theorem header_room (hm : mimeType.length ≤ maxMimeLen) (stSize : Int64) :
    (headerText mimeType stSize.toInt).length ≤ headerLen := by
  have hd := decimal_stSize stSize
  rw [headerText_length, headerLen]
  omega

theorem fileFits (stSize : Int64) (h : guessMimeType uri = some (some mimeType)) :
    FileFits uri mimeType stSize := by
  obtain ⟨hzero, _, hm⟩ := guessMimeType_small h
  have hroom := header_room hm stSize
  have hwritten := header_fits hzero hroom
  exact ⟨Nat.succ_le_succ hm, Nat.succ_le_succ hroom, hwritten, sendFile_survives hwritten⟩

theorem errorText_length (statusMsg : Bytes) : (errorText statusMsg).length = msgLen statusMsg := by
  simp only [errorText, List.length_append, show (ascii "HTTP/1.1 ").length = 9 from rfl,
    show (ascii "\n").length = 1 from rfl,
    show (ascii "Content-Type: text/plain\n").length = 25 from rfl,
    show (ascii "Content-Length: 7\n").length = 18 from rfl,
    show (ascii "Connection: close\n\n").length = 19 from rfl,
    show (ascii "Error.\n").length = 7 from rfl, msgLen]

theorem messageFits (hs : 0 ∉ statusMsg) : MessageFits statusMsg := by
  refine ⟨errorText statusMsg, message_eq hs, ?_, errorText_length statusMsg⟩
  simp only [errorText, List.mem_append, not_or]
  exact ⟨⟨⟨⟨⟨⟨by decide, hs⟩, by decide⟩, by decide⟩, by decide⟩, by decide⟩, by decide⟩

theorem responds (status : Status) : Responds status := by
  refine ⟨?_, respond_survives status⟩
  cases status <;> decide

section

variable {α β σ : Type} {env : Environment Call Answer σ} {w : σ}

theorem survives_done {a : α} : Survives env (.done a) w :=
  guarantees_done.mpr ⟨by rintro ⟨⟩, by rintro ⟨⟩⟩

theorem survives_bind {p : Process α} {f : α → Process β} (hp : OnlyHalts (· ≠ .fault) p)
    (hf : ∀ a w, Survives env (f a) w) : Survives env (p >>= f) w := by
  refine guarantees_bind (guarantees_mono (onlyHalts_guarantees hp) (fun o w' h => ?_))
  cases o with
  | cut => exact nofun
  | halted e =>
    intro he
    cases he
    exact h _ rfl rfl
  | returned a => exact hf a w'

/-- The file that a request leads to can be announced. -/
theorem survives_handleRequest {m : RequestLine} {k : RequestLine × Option Served → Process α}
    (henv : Sized env) (h : Answered ((parseRequest m).map Prod.snd) True)
    (hnone : ∀ m w, Survives env (k (m, none)) w)
    (hsome : ∀ m served head w, header served.mimeType served.size = some head →
      Survives env (k (m, some served)) w) :
    Survives env (handleRequest clientFd m >>= k) w := by
  have hreject (m : RequestLine) (status : Status) (w : σ) : Survives env
      ((do respond status clientFd; return (m, (none : Option Served))) >>= k) w := by
    rw [respond_eq]
    refine guarantees_call.mpr ⟨by rintro ⟨⟩, fun _ _ _ => ?_⟩
    exact guarantees_call.mpr ⟨by rintro ⟨⟩, fun _ w _ => hnone m w⟩
  obtain ⟨request, hp, hdot⟩ := h
  obtain ⟨⟨m', request⟩, hm, rfl⟩ := Option.map_eq_some_iff.mp hp
  rw [handleRequest, hm]
  cases request with
  | rejected status => exact hreject m' status w
  | accepted uri =>
    refine guarantees_call.mpr ⟨by rintro ⟨⟩, fun found w₁ ha => ?_⟩
    cases found with
    | error e => cases e <;> exact hreject m' _ w₁
    | ok size =>
      obtain ⟨stSize, rfl⟩ := henv _ _ _ _ ha
      cases ht : guessMimeType uri with
      | none => exact absurd (hdot uri rfl trivial) (guessMimeType_eq_none.mp ht)
      | some chosen =>
        cases chosen with
        | none => exact hreject m' .status400 w₁
        | some mimeType => exact hsome m' _ _ w₁ (fileFits stSize ht).written

/-- Whatever the calls answer, a request that has its separators is served without an
invalid access. -/
theorem serveRead_survives {s : State} {bytes : Option Bytes} (henv : Sized env)
    (hb : (bytes.getD []).length ≤ maxRequestLineLen)
    (h : Separated ((delivered s.requestLine (bytes.getD [])).takeWhile (· ≠ 0)) True) :
    Survives env (serveRead s clientFd bytes) w := by
  obtain ⟨m, hm, _⟩ : ∃ m, readInto s.requestLine (bytes.getD []) = some m ∧ _ := readInto_eq hb
  rw [← answered_string, ← parse_readInto hb hm] at h
  refine survives_bind ?_ (fun _ w => ?_)
  · cases bytes with
    | none => exact fun _ => trivial
    | some bytes => trivial
  · simp only [hm, access, Program.pure_eq, Program.done_bind]
    refine survives_handleRequest henv h (fun m w => survives_done) (fun m served head w hh => ?_)
    exact survives_bind (sendFile_survives hh clientFd) (fun _ w => survives_done)

end

/-- The sizes that were counted by hand suffice for every file size, every MIME type
and every status string. -/
theorem arrays_suffice (uri statusMsg : Bytes) (stSize : Int64) (hs : 0 ∉ statusMsg) :
    (guessMimeType uri = none → dot ∉ uri) ∧
    (∀ mimeType, guessMimeType uri = some (some mimeType) → FileFits uri mimeType stSize) ∧
    MessageFits statusMsg ∧ ∀ status, Responds status :=
  ⟨guessMimeType_eq_none.mp, fun _ h => fileFits stSize h, messageFits hs, responds⟩

theorem arrays_suffice_least : FileFits (ascii "a.jpeg") (ascii "image/jpeg") Int64.minValue ∧
    MessageFits (ascii "404 Not Found") := by
  obtain ⟨_, hfile, hmessage, _⟩ := arrays_suffice (ascii "a.jpeg") (ascii "404 Not Found")
    Int64.minValue (by decide)
  exact ⟨hfile _ (by rw [guessMimeType_eq]; decide), hmessage⟩

/-- Nothing is left over behind the longest type and the least size. -/
example : (headerText (ascii "image/jpeg") Int64.minValue.toInt).length = headerLen := by
  decide +kernel

end Ti3.Http.ArraySizes
