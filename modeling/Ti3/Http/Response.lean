import Mathlib.Algebra.Order.Ring.Int
import Ti3.Http.Server

namespace Ti3.Http.Response

open Library.CString Library.CMemory Server

/-- The text of an error response. -/
def errorText (statusMsg : Bytes) : Bytes :=
  ascii "HTTP/1.1 " ++ statusMsg ++ ascii "\n" ++ ascii "Content-Type: text/plain\n" ++
    ascii "Content-Length: 7\n" ++ ascii "Connection: close\n\n" ++ ascii "Error.\n"

/-- The text fills its array up to the last byte. -/
theorem message_eq {statusMsg : Bytes} (hs : 0 ∉ statusMsg) :
    message statusMsg = some (errorText statusMsg ++ [0]) := by
  have hn : msgLen statusMsg = (ascii "HTTP/1.1 ").length + (statusMsg.length + 70) := by
    simp only [msgLen, show (ascii "HTTP/1.1 ").length = 9 from rfl]
    omega
  obtain ⟨m₁, h₁, hm₁⟩ := strcpy_padded (statusMsg.length + 70) padded_zeros (by decide) hn
  obtain ⟨m₂, h₂, hm₂⟩ := strcat_padded 70 hm₁ hs rfl
  obtain ⟨m₃, h₃, hm₃⟩ := strcat_padded 69 hm₂ (t := ascii "\n") (by decide) rfl
  obtain ⟨m₄, h₄, hm₄⟩ := strcat_padded 44 hm₃ (t := ascii "Content-Type: text/plain\n")
    (by decide) rfl
  obtain ⟨m₅, h₅, hm₅⟩ := strcat_padded 26 hm₄ (t := ascii "Content-Length: 7\n") (by decide) rfl
  obtain ⟨m₆, h₆, hm₆⟩ := strcat_padded 7 hm₅ (t := ascii "Connection: close\n\n") (by decide) rfl
  obtain ⟨m₇, h₇, hm₇⟩ := strcat_padded 0 hm₆ (t := ascii "Error.\n") (by decide) rfl
  simp only [message, start, h₁, h₂, h₃, h₄, h₅, h₆, h₇, Option.bind_eq_bind, Option.bind_some,
    Option.pure_def, hm₇.1]
  rfl

theorem message_status (status : Status) :
    message status.msg = some (errorText status.msg ++ [0]) := by
  apply message_eq
  cases status <;> decide

theorem respond_eq (status : Status) (sockFd : Int) : respond status sockFd =
    .call (.send sockFd .msg (errorText status.msg ++ [0]))
      (fun _ => .call (.close sockFd) (fun _ => .done ())) := by
  rw [respond, message_status]
  rfl

theorem decimal_natCast (n : Nat) :
    decimal n = (Nat.toDigits 10 n).map (fun c => UInt8.ofNat c.toNat) := by
  rw [decimal, ascii, ← Nat.toList_repr]
  rfl

theorem digit_bounds {c : Char} (h : c.isDigit) : 48 ≤ c.toNat ∧ c.toNat ≤ 57 := by
  rw [Char.isDigit, Bool.and_eq_true, decide_eq_true_eq, decide_eq_true_eq] at h
  exact h

theorem digit_of_mem_decimal {n : Nat} {b : UInt8} (h : b ∈ decimal n) : 48 ≤ b ∧ b ≤ 57 := by
  rw [decimal_natCast] at h
  obtain ⟨c, hc, rfl⟩ := List.mem_map.mp h
  have hb := digit_bounds (Nat.isDigit_of_mem_toDigits (by decide) (by decide) hc)
  have hl : (UInt8.ofNat c.toNat).toNat = c.toNat := Nat.mod_eq_of_lt (by omega)
  rw [UInt8.le_iff_toNat_le, UInt8.le_iff_toNat_le, hl]
  exact hb

theorem decimal_value (n : Nat) :
    Nat.ofDigitChars 10 ((decimal n).map (fun b => Char.ofNat b.toNat)) 0 = n := by
  have hm : (decimal n).map (fun b => Char.ofNat b.toNat) = (Nat.toDigits 10 n).map id := by
    rw [decimal_natCast, List.map_map]
    refine List.map_congr_left (fun c hc => ?_)
    have hb := digit_bounds (Nat.isDigit_of_mem_toDigits (by decide) (by decide) hc)
    have hl : (UInt8.ofNat c.toNat).toNat = c.toNat := Nat.mod_eq_of_lt (by omega)
    rw [Function.comp_apply, hl, Char.ofNat_toNat, id]
  rw [hm, List.map_id, Nat.ofDigitChars_ten_toDigits]

theorem decimal_injective : Function.Injective (fun n : Nat => decimal n) := by
  intro m n h
  rw [← decimal_value m, ← decimal_value n]
  exact congrArg (fun s => Nat.ofDigitChars 10 (List.map _ s) 0) h

theorem decimal_negSucc (n : Nat) : decimal (.negSucc n) = 45 :: decimal (n + 1 : Nat) := by
  have htext : (toString (Int.negSucc n)).toList = '-' :: (toString (n + 1)).toList := by
    change ("-" ++ toString (n + 1)).toList = _
    rw [String.toList_append]
    rfl
  rw [decimal, ascii, htext]
  rfl

theorem zero_not_mem_decimal (i : Int) : 0 ∉ decimal i := by
  have hdigits (n : Nat) : 0 ∉ decimal n := fun h =>
    absurd (digit_of_mem_decimal h).1 (by decide)
  cases i with
  | ofNat n => exact hdigits n
  | negSucc n =>
    rw [decimal_negSucc, List.mem_cons, not_or]
    exact ⟨by decide, hdigits (n + 1)⟩

theorem decimal_length {n k : Nat} (hk : 0 < k) (h : n < 10 ^ k) : (decimal n).length ≤ k := by
  rw [decimal_natCast, List.length_map]
  exact (Nat.length_toDigits_le_iff (by decide) hk).mpr h

/-- A minus sign needs the room of one digit. -/
theorem decimal_length_signed {i : Int} {k : Nat} (hk : 0 < k) (hl : -10 ^ k < i)
    (hu : i < 10 ^ (k + 1)) : (decimal i).length ≤ k + 1 := by
  cases i with
  | ofNat n =>
    have hn : n < 10 ^ (k + 1) := by
      rw [Int.ofNat_eq_natCast] at hu
      exact_mod_cast hu
    exact decimal_length (Nat.succ_pos k) hn
  | negSucc n =>
    have hn : n + 1 < 10 ^ k := by
      have hneg : ((n + 1 : Nat) : Int) < 10 ^ k := by
        rw [Int.negSucc_eq] at hl
        push_cast
        omega
      exact_mod_cast hneg
    rw [decimal_negSucc, List.length_cons]
    exact Nat.succ_le_succ (decimal_length hk hn)

/-- Each line with its newline. -/
def textLines (lines : List Bytes) : Bytes := lines.flatMap (· ++ [newline])

def errorLines (statusMsg : Bytes) : List Bytes :=
  [ascii "HTTP/1.1 " ++ statusMsg, ascii "Content-Type: text/plain", ascii "Content-Length: 7",
    ascii "Connection: close"]

def headerLines (mimeType : Bytes) (size : Nat) : List Bytes :=
  [ascii "HTTP/1.0 200 OK", ascii "Content-Type: " ++ mimeType, ascii "Connection: close",
    ascii "Content-Length: " ++ decimal size]

theorem ascii_newline : ascii "\n" = [newline] := rfl

theorem errorText_eq (statusMsg : Bytes) : errorText statusMsg =
    textLines (errorLines statusMsg) ++ newline :: ascii "Error.\n" := by
  have htype : ascii "Content-Type: text/plain\n" =
    ascii "Content-Type: text/plain" ++ [newline] := rfl
  have hlength : ascii "Content-Length: 7\n" = ascii "Content-Length: 7" ++ [newline] := rfl
  have hconnection : ascii "Connection: close\n\n" =
    ascii "Connection: close" ++ [newline, newline] := rfl
  simp only [errorText, textLines, errorLines, List.flatMap_cons, List.flatMap_nil,
    List.append_assoc, ascii_newline, htype, hlength, hconnection, List.cons_append,
    List.nil_append]

/-- What `sprintf` makes of its format. -/
def headerText (mimeType : Bytes) (size : Int) : Bytes :=
  ascii "HTTP/1.0 200 OK\n" ++ ascii "Content-Type: " ++ mimeType ++ ascii "\n" ++
    ascii "Connection: close\n" ++ ascii "Content-Length: " ++ decimal size ++ ascii "\n" ++
    ascii "\n"

theorem headerText_length (mimeType : Bytes) (size : Int) :
    (headerText mimeType size).length = mimeType.length + (decimal size).length + 67 := by
  simp only [headerText, List.length_append, show (ascii "HTTP/1.0 200 OK\n").length = 16 from rfl,
    show (ascii "Content-Type: ").length = 14 from rfl, show (ascii "\n").length = 1 from rfl,
    show (ascii "Connection: close\n").length = 18 from rfl,
    show (ascii "Content-Length: ").length = 16 from rfl]
  omega

theorem headerText_lines (mimeType : Bytes) (size : Nat) :
    headerText mimeType size = textLines (headerLines mimeType size) ++ [newline] := by
  have hstatus : ascii "HTTP/1.0 200 OK\n" = ascii "HTTP/1.0 200 OK" ++ [newline] := rfl
  have hconnection : ascii "Connection: close\n" = ascii "Connection: close" ++ [newline] := rfl
  simp only [headerText, textLines, headerLines, List.flatMap_cons, List.flatMap_nil,
    List.append_assoc, ascii_newline, hstatus, hconnection, List.cons_append, List.nil_append]

/-- A text that fits is written as it is. -/
theorem header_fits {mimeType : Bytes} {size : Int} (hm : 0 ∉ mimeType)
    (hl : (headerText mimeType size).length ≤ headerLen) :
    header mimeType size = some (headerText mimeType size) := by
  have hnewline : 0 ∉ ascii "\n" := by decide
  have hzero : 0 ∉ headerText mimeType size := by
    simp only [headerText, List.mem_append, not_or]
    exact ⟨⟨⟨⟨⟨⟨⟨⟨by decide, by decide⟩, hm⟩, hnewline⟩, by decide⟩, by decide⟩,
      zero_not_mem_decimal size⟩, hnewline⟩, hnewline⟩
  obtain ⟨m, hc, hm⟩ := strcpy_padded _ padded_zeros hzero (Nat.add_sub_cancel' hl).symm
  have hheader : header mimeType size =
      ((Buffer.zeros (headerLen + 1)).strcpy (.inside 0) (headerText mimeType size)).bind
        (fun m => m.string (.inside 0)) := rfl
  rw [hheader, hc, Option.bind_some, string_padded hm]

theorem header_eq {mimeType : Bytes} {size : Nat} (hm : 0 ∉ mimeType)
    (hl : mimeType.length ≤ maxMimeLen) (hs : size < 10 ^ 20) :
    header mimeType size = some (textLines (headerLines mimeType size) ++ [newline]) := by
  have hd : (decimal size).length ≤ 20 := decimal_length (by decide) hs
  have hfits : (headerText mimeType size).length ≤ headerLen := by
    rw [headerText_length, headerLen]
    omega
  rw [header_fits hm hfits, headerText_lines]

theorem mime_eq {name : Bytes} (hn : 0 ∉ name) (hl : name.length ≤ maxMimeLen) :
    mime name = some name := by
  obtain ⟨m, hc, hm⟩ := strcpy_padded (n := maxMimeLen + 1) (maxMimeLen - name.length) padded_zeros
    hn (by omega)
  simp only [mime, start, hc, Option.bind_eq_bind, Option.bind_some, string_padded hm]

/-- The MIME type for an extension, if it is known. -/
def extensionType (filenameExt : Bytes) : Option Bytes :=
  if filenameExt = ascii "html" ∨ filenameExt = ascii "htm" then some (ascii "text/html")
  else if filenameExt = ascii "jpeg" ∨ filenameExt = ascii "jpg" then some (ascii "image/jpeg")
  else if filenameExt = ascii "gif" then some (ascii "image/gif")
  else none

theorem guessMimeType_eq (uri : Bytes) : guessMimeType uri =
    (lastIndex dot uri).map (fun k => extensionType (uri.drop (k + 1))) := by
  have hhtml : mime (ascii "text/html") = some _ := mime_eq (by decide) (by decide)
  have hjpeg : mime (ascii "image/jpeg") = some _ := mime_eq (by decide) (by decide)
  have hgif : mime (ascii "image/gif") = some _ := mime_eq (by decide) (by decide)
  cases hk : lastIndex dot uri with
  | none => simp [guessMimeType, hk]
  | some k =>
    simp only [guessMimeType, hk, Option.map_some, hhtml, hjpeg, hgif, Option.bind_eq_bind,
      Option.bind_some, extensionType, Option.pure_def]
    split_ifs <;> rfl

theorem guessMimeType_eq_none {uri : Bytes} : guessMimeType uri = none ↔ dot ∉ uri := by
  rw [guessMimeType_eq, Option.map_eq_none_iff]
  refine ⟨fun h hd => ?_, lastIndex_eq_none⟩
  have hs := lastIndex_isSome hd
  rw [h] at hs
  cases hs

theorem guessMimeType_small {uri mimeType : Bytes} (h : guessMimeType uri = some (some mimeType)) :
    0 ∉ mimeType ∧ newline ∉ mimeType ∧ mimeType.length ≤ maxMimeLen := by
  rw [guessMimeType_eq] at h
  obtain ⟨k, _, he⟩ := Option.map_eq_some_iff.mp h
  rw [extensionType] at he
  split_ifs at he <;> cases he <;> decide

end Ti3.Http.Response
