import Ti3.Http.Response
import Ti3.Library.Rules

namespace Ti3.Http.Transfer

open Library.CString Library.Interaction Library.Rules Server Response

-- The texts are known by their equations; evaluating them on the way is slow.
attribute [local irreducible] message header

/-- What `fread` delivers of a file, piece by piece. -/
def piece (content : Bytes) (i : Nat) : Bytes := (content.drop (bufsize * i)).take bufsize

/-- What of the first pieces is accepted, given how many bytes of each are. -/
def accepted (counts : Nat → Nat) (content : Bytes) (n : Nat) : Bytes :=
  (List.range n).flatMap (fun i => (piece content i).take (counts i))

/-- `send` takes some bytes of every piece, and no more than it is offered. -/
def Possible (counts : Nat → Nat) (content : Bytes) : Prop :=
  ∀ i, bufsize * i < content.length → 1 ≤ counts i ∧ counts i ≤ (piece content i).length

/-- A file on its way to a client: what of it has not been read, how many pieces
have been sent, what has been accepted of all that was sent behind the header,
whether there was a read error, and whether the file, and then the connection,
has been closed. -/
structure Download where
  unread : Bytes
  sends : Nat
  accepted : Bytes
  error : Bool
  fclosed : Bool
  finished : Bool

def Download.start (content : Bytes) : Download := ⟨content, 0, [], false, false, false⟩

/-- A read is short at the end of the file or when there is an error. -/
def downloading (counts : Nat → Nat) : Environment Call Answer Download := fun w c a w' =>
  match c, a with
  | .send _ .header _, _ => w' = w
  | .send _ .buf bytes, a => a = counts w.sends ∧
    w' = { w with sends := w.sends + 1, accepted := w.accepted ++ bytes.take (counts w.sends) }
  | .send _ .msg bytes, a => w' = { w with accepted := w.accepted ++ bytes.take a.toNat }
  | .fread _ count, bytes => ∃ unread error, w.unread = bytes ++ unread ∧ bytes.length ≤ count ∧
    (error = false → w.error = false ∧ bytes = w.unread.take count) ∧
    w' = { w with unread := unread, error := error }
  | .ferror _, a => a = w.error ∧ w' = w
  | .fclose _, _ => w' = { w with fclosed := true }
  | .close _, _ => w' = { w with finished := w.fclosed }
  | _, _ => w' = w

/-- When the connection is closed behind the file and there was no read error,
the file has been accepted as it is. -/
def Arrived (content : Bytes) (w : Download) : Prop :=
  w.finished = true → w.error = false → w.accepted = content

variable {counts : Nat → Nat} {content : Bytes} {fd : Int}

theorem accepted_succ (n : Nat) : accepted counts content (n + 1) =
    accepted counts content n ++ (piece content n).take (counts n) := by
  simp [accepted, List.range_succ]

theorem take_pieces (n : Nat) :
    content.take (bufsize * (n + 1)) = content.take (bufsize * n) ++ piece content n := by
  rw [Nat.mul_succ, List.take_add, piece]

theorem accepted_whole (h : ∀ i, bufsize * i < content.length → counts i = (piece content i).length)
    (n : Nat) : accepted counts content n = content.take (bufsize * n) := by
  induction n with
  | zero => rfl
  | succ n ih =>
    rw [accepted_succ, take_pieces, ih]
    by_cases hn : bufsize * n < content.length
    · rw [h n hn, List.take_length]
    · rw [piece, List.drop_eq_nil_of_le (Nat.not_lt.mp hn), List.take_nil, List.take_nil]

theorem accepted_length_le (n : Nat) :
    (accepted counts content n).length ≤ (content.take (bufsize * n)).length := by
  induction n with
  | zero => exact Nat.zero_le _
  | succ n ih =>
    rw [accepted_succ, take_pieces, List.length_append, List.length_append]
    exact Nat.add_le_add ih (List.length_take_le' _ _)

/-- What is missing from one piece never comes. -/
theorem accepted_length_lt {i n : Nat} (hi : i < n) (hc : counts i < (piece content i).length) :
    (accepted counts content n).length < (content.take (bufsize * n)).length := by
  induction n with
  | zero => exact absurd hi (Nat.not_lt_zero _)
  | succ n ih =>
    rw [accepted_succ, take_pieces, List.length_append, List.length_append]
    obtain hlt | rfl := Nat.lt_succ_iff_lt_or_eq.mp hi
    · exact Nat.add_lt_add_of_lt_of_le (ih hlt) (List.length_take_le' _ _)
    · apply Nat.add_lt_add_of_le_of_lt (accepted_length_le i)
      rw [List.length_take]
      omega

/-- Without a read error, whole pieces of the file have been read and sent. -/
def Progress (counts : Nat → Nat) (content : Bytes) (w : Download) : Prop :=
  w.error = false → w.unread = content.drop (bufsize * w.sends) ∧
    w.accepted = accepted counts content w.sends

/-- The file is still open. -/
def Open (counts : Nat → Nat) (content : Bytes) (w : Download) : Prop :=
  w.fclosed = false ∧ w.finished = false ∧ Progress counts content w

theorem arrived_open {w : Download} (h : w.finished = false) : Arrived content w :=
  fun hf => absurd (hf.symm.trans h) (by decide)

/-- A read without an error delivers the next piece. -/
theorem Progress.fread {w : Download} {buf unread : Bytes} {error : Bool}
    (hp : Progress counts content w) (hunread : w.unread = buf ++ unread)
    (herror : error = false → w.error = false ∧ buf = w.unread.take bufsize)
    (he : error = false) : buf = piece content w.sends ∧
      unread = content.drop (bufsize * (w.sends + 1)) ∧
        w.accepted = accepted counts content w.sends := by
  obtain ⟨he', hb⟩ := herror he
  obtain ⟨hu, ha⟩ := hp he'
  have hdrop : unread = w.unread.drop bufsize := by
    have hsplit : buf ++ unread = buf ++ w.unread.drop bufsize := by
      rw [← hunread, hb, List.take_append_drop]
    exact List.append_cancel_left hsplit
  refine ⟨?_, ?_, ha⟩
  · rw [hb, hu, piece]
  · rw [hdrop, hu, List.drop_drop, Nat.mul_succ]

theorem transferStep_guarantees {w : Download} {infile : Nat} (u : Unit)
    (h : Open counts content w) : Guarantees (downloading counts) (transferStep fd infile u) w
      (follow (fun (_ : Outcome Exit Unit) w' => Arrived content w')
        (Sum.elim (fun _ w' => Open counts content w') (fun _ w' => w'.fclosed = false ∧
          w'.finished = false ∧ (w'.error = false →
            w'.accepted = accepted counts content w'.sends ∧
              content.length ≤ bufsize * w'.sends)))) := by
  obtain ⟨hclosed, hfinished, hp⟩ := h
  simp only [transferStep, Server.fread, send, library, ask_bind, Program.pure_eq]
  refine guarantees_call.mpr ⟨arrived_open hfinished, ?_⟩
  rintro buf w₁ ⟨unread, error, hunread, _, herror, rfl⟩
  have hread := hp.fread hunread herror
  split
  · next hb =>
    refine guarantees_done.mpr ⟨arrived_open hfinished, hclosed, hfinished, fun he => ?_⟩
    obtain ⟨hpiece, _, ha⟩ := hread he
    refine ⟨ha, ?_⟩
    have hlen := congrArg List.length (hpiece.symm.trans hb)
    rw [piece, List.length_take, List.length_drop, List.length_nil, bufsize] at hlen
    change content.length ≤ 1024 * w.sends
    omega
  · refine guarantees_call.mpr ⟨arrived_open hfinished, ?_⟩
    rintro a w₂ ⟨_, rfl⟩
    refine guarantees_done.mpr ⟨arrived_open hfinished, hclosed, hfinished, fun he => ?_⟩
    obtain ⟨hpiece, hrest, ha⟩ := hread he
    refine ⟨hrest, ?_⟩
    rw [ha, hpiece, accepted_succ]

/-- An error response closes the connection before the file. -/
theorem respond_guarantees {w : Download} {status : Status} (hclosed : w.fclosed = false)
    (hfinished : w.finished = false) : Guarantees (downloading counts) (respond status fd) w
      (fun _ w' => w'.finished = false ∧ w'.error = w.error) := by
  rw [respond_eq]
  refine guarantees_call.mpr ⟨⟨hfinished, rfl⟩, ?_⟩
  rintro _ _ rfl
  refine guarantees_call.mpr ⟨⟨hfinished, rfl⟩, ?_⟩
  rintro _ _ rfl
  exact guarantees_done.mpr ⟨⟨hclosed, rfl⟩, hclosed, rfl⟩

/-- What is done behind the transfer. -/
theorem finish_guarantees {w : Download} {infile : Nat} (hclosed : w.fclosed = false)
    (hfinished : w.finished = false) (h : w.error = false → w.accepted = content) :
    Guarantees (downloading counts) (do
      respondIf (← ferror infile) .status500 fd
      let _ ← fclose infile
      let _ ← close fd) w (fun _ w' => Arrived content w') := by
  have hrest {w' : Download} (hw' : w'.error = false → w'.accepted = content)
      (hn : w'.finished = false) : Guarantees (downloading counts) (do
        let _ ← fclose infile
        let _ ← close fd) w' (fun _ w'' => Arrived content w'') := by
    simp only [fclose, close, library, ask_bind, Program.pure_eq]
    refine guarantees_call.mpr ⟨arrived_open hn, ?_⟩
    rintro _ _ rfl
    refine guarantees_call.mpr ⟨arrived_open hn, ?_⟩
    rintro _ _ rfl
    exact guarantees_done.mpr ⟨fun _ => hw', fun _ => hw'⟩
  simp only [ferror, library, ask_bind]
  refine guarantees_call.mpr ⟨arrived_open hfinished, ?_⟩
  rintro _ w ⟨rfl, rfl⟩
  cases he : w.error with
  | false => exact hrest h hfinished
  | true =>
    refine guarantees_bind (guarantees_mono (respond_guarantees hclosed hfinished) ?_)
    rintro o w' ⟨hn, he'⟩
    cases o with
    | cut | halted _ => exact arrived_open hn
    | returned u => exact hrest (fun hf => absurd (hf.symm.trans (he'.trans he)) (by decide)) hn

theorem sendFile_arrives {served : Served}
    (h : ∀ i, bufsize * i < content.length → counts i = (piece content i).length) :
    Guarantees (downloading counts) (sendFile fd served) (.start content)
      (fun _ w => Arrived content w) := by
  have hstart : Open counts content (.start content) := ⟨rfl, rfl, fun _ => ⟨rfl, rfl⟩⟩
  have hunfinished : Arrived content (.start content) := arrived_open rfl
  have hrespond (status : Status) : Guarantees (downloading counts) (respond status fd)
      (.start content) (fun _ w => Arrived content w) :=
    guarantees_mono (respond_guarantees rfl rfl) (fun _ _ hw => arrived_open hw.1)
  rw [sendFile]
  cases header served.mimeType served.size with
  | none => exact guarantees_halt.mpr ⟨hunfinished, hunfinished⟩
  | some header =>
    simp only [access, send, fopen, library, ask_bind, Program.pure_eq, Program.done_bind]
    refine guarantees_call.mpr ⟨hunfinished, ?_⟩
    rintro sent _ rfl
    split
    · exact guarantees_done.mpr ⟨hunfinished, hunfinished⟩
    · refine guarantees_call.mpr ⟨hunfinished, ?_⟩
      rintro opened _ rfl
      cases opened with
      | error e => cases e <;> exact hrespond _
      | ok infile =>
        refine guarantees_loop (fun _ w => Open counts content w) hstart (fun u w hw => ?_)
        refine guarantees_mono (transferStep_guarantees u hw) (fun o w' hw' => ?_)
        match o with
        | .cut | .halted _ => exact hw'
        | .returned (.inl _) => exact hw'
        | .returned (.inr _) =>
          obtain ⟨hclosed, hfinished, hsent⟩ := hw'
          refine finish_guarantees hclosed hfinished (fun he => ?_)
          obtain ⟨ha, hlen⟩ := hsent he
          rw [ha, accepted_whole h, List.take_of_length_le hlen]

/-- The download after `n` pieces. -/
def afterPieces (counts : Nat → Nat) (content : Bytes) (n : Nat) : Download :=
  ⟨content.drop (bufsize * n), n, accepted counts content n, false, false, false⟩

theorem exists_pieces (content : Bytes) :
    ∃ n, content.length ≤ bufsize * n ∧ ∀ i < n, bufsize * i < content.length := by
  refine ⟨(content.length + 1023) / 1024, ?_, fun i hi => ?_⟩
  · rw [bufsize]
    omega
  · rw [bufsize]
    omega

theorem piece_ne_nil {i : Nat} (hi : bufsize * i < content.length) : piece content i ≠ [] := by
  apply List.ne_nil_of_length_pos
  rw [piece, List.length_take, List.length_drop]
  have hpos : 0 < bufsize := by decide
  omega

theorem transferStep_runs {infile i : Nat} (hi : bufsize * i < content.length) :
    Runs (downloading counts) (transferStep fd infile ()) (afterPieces counts content i)
      (.returned (.inl ())) (afterPieces counts content (i + 1)) := by
  simp only [transferStep, Server.fread, send, library, ask_bind, Program.pure_eq]
  have hdrop : content.drop (bufsize * (i + 1)) = (content.drop (bufsize * i)).drop bufsize := by
    rw [List.drop_drop, Nat.mul_succ]
  have hread : content.drop (bufsize * i) =
      piece content i ++ content.drop (bufsize * (i + 1)) := by
    rw [hdrop, piece, List.take_append_drop]
  apply runs_call ⟨_, false, hread, List.length_take_le _ _, fun _ => ⟨rfl, rfl⟩, rfl⟩
  rw [if_neg (piece_ne_nil hi)]
  refine runs_call ⟨rfl, ?_⟩ runs_done
  rw [afterPieces, accepted_succ]
  rfl

theorem transfer_runs {infile n : Nat} (hlen : content.length ≤ bufsize * n)
    (hn : ∀ i < n, bufsize * i < content.length) :
    Iterates (fun u => Runs (downloading counts) (transferStep fd infile u)) ()
      (.start content) (.returned ()) (afterPieces counts content n) := by
  have hnil : content.drop (bufsize * n) = [] := List.drop_eq_nil_of_le hlen
  have hstop : Iterates (fun u => Runs (downloading counts) (transferStep fd infile u)) ()
      (afterPieces counts content n) (.returned ()) (afterPieces counts content n) := by
    have hread : downloading counts (afterPieces counts content n) (.fread infile bufsize) []
        (afterPieces counts content n) := by
      refine ⟨[], false, hnil, Nat.zero_le _, fun _ => ⟨rfl, ?_⟩, ?_⟩
      · simp [afterPieces, hnil]
      · simp [afterPieces, hnil]
    exact .stop (runs_call hread runs_done)
  exact iterates_steps (fun _ => ()) (afterPieces counts content) n
    (fun i hi => transferStep_runs (hn i hi)) hstop

/-- In some run the connection is closed behind the file without a read error. -/
theorem sendFile_finishes {served : Served} {head : Bytes} {n : Nat}
    (hh : header served.mimeType served.size = some head)
    (hlen : content.length ≤ bufsize * n) (hn : ∀ i < n, bufsize * i < content.length) :
    ∃ w, Runs (downloading counts) (sendFile fd served) (.start content) (.returned ()) w ∧
      w.finished = true ∧ w.error = false ∧ w.accepted = accepted counts content n := by
  let w := afterPieces counts content n
  refine ⟨{ w with fclosed := true, finished := true }, ?_, rfl, rfl, rfl⟩
  simp only [sendFile, hh, access, Program.pure_eq, Program.done_bind, send, fopen, ferror, fclose,
    close, library, ask_bind]
  apply runs_call (a := (head.length : Int)) rfl
  rw [if_neg (not_not.mpr rfl)]
  apply runs_call (a := (.ok 0 : Except Errno Nat)) rfl
  apply Sequenced.next (transfer_runs hlen hn)
  exact runs_call ⟨rfl, rfl⟩ (runs_call (a := 0) rfl (runs_call (a := 0) rfl runs_done))

/-- Whatever is answered, the file has been accepted as it is when the server is
done with it. -/
def Intact (counts : Nat → Nat) (content : Bytes) (clientFd : Int) (served : Served) : Prop :=
  Guarantees (downloading counts) (sendFile clientFd served) (.start content)
    (fun _ w => Arrived content w)

theorem counts_of_intact {served : Served} {size : Nat}
    (hm : guessMimeType served.uri = some (some served.mimeType)) (hs : served.size = size)
    (hsize : size < 2 ^ 63) (h : Intact counts content fd served) {i : Nat}
    (hi : bufsize * i < content.length) : (piece content i).length ≤ counts i := by
  obtain ⟨n, hlen, hn⟩ := exists_pieces content
  obtain ⟨hzero, _, hmime⟩ := guessMimeType_small hm
  have hh : header served.mimeType served.size = some _ := hs ▸ header_eq hzero hmime (by omega)
  obtain ⟨w, hr, hfinished, herror, ha⟩ : ∃ w, Runs (downloading counts) (sendFile fd served)
    (.start content) _ w ∧ _ := sendFile_finishes hh hlen hn
  have hall : accepted counts content n = content := ha.symm.trans (h _ _ hr hfinished herror)
  have hin : i < n := Nat.lt_of_mul_lt_mul_left (Nat.lt_of_lt_of_le hi hlen)
  refine Nat.le_of_not_lt (fun hlt => ?_)
  have hshort := accepted_length_lt hin hlt
  rw [hall, List.take_of_length_le hlen] at hshort
  exact Nat.lt_irrefl _ hshort

/-- A download is intact exactly when `send` takes the whole of each piece. -/
theorem intact_iff {served : Served} {size : Nat}
    (hm : guessMimeType served.uri = some (some served.mimeType)) (hs : served.size = size)
    (hsize : size < 2 ^ 63) (hp : Possible counts content) : Intact counts content fd served ↔
      ∀ i, bufsize * i < content.length → counts i = (piece content i).length := by
  refine ⟨fun h i hi => ?_, sendFile_arrives⟩
  exact Nat.le_antisymm (hp i hi).2 (counts_of_intact hm hs hsize h hi)

theorem possible_gif {k : Nat} (h₁ : 1 ≤ k) (h₃ : k ≤ 3) :
    Possible (fun _ => k) (ascii "GIF") := by
  intro i hi
  obtain rfl : i = 0 := by
    change 1024 * i < 3 at hi
    omega
  exact ⟨h₁, h₃⟩

theorem intact_iff_gif : Intact (fun _ => 3) (ascii "GIF") 5
      ⟨ascii "a.gif", ascii "image/gif", (3 : Nat)⟩ ↔
    ∀ i, bufsize * i < (ascii "GIF").length → 3 = (piece (ascii "GIF") i).length :=
  intact_iff (by decide +kernel) rfl (by decide) (possible_gif (by decide) (by decide))

/-- One byte of three is accepted, and the other two are never sent again. -/
theorem bytes_skipped : ¬ ∀ (counts : Nat → Nat) (content : Bytes) (fd : Int) (served : Served)
    (size : Nat), guessMimeType served.uri = some (some served.mimeType) → served.size = size →
    size < 2 ^ 63 → Possible counts content → Intact counts content fd served := by
  intro h
  have hm : guessMimeType (ascii "a.gif") = some (some (ascii "image/gif")) := by decide +kernel
  have hi := h (fun _ => 1) (ascii "GIF") 5 ⟨ascii "a.gif", ascii "image/gif", (3 : Nat)⟩ 3 hm rfl
    (by decide) (possible_gif (by decide) (by decide))
  have hle : (piece (ascii "GIF") 0).length ≤ 1 :=
    counts_of_intact hm rfl (by decide) hi (by decide)
  exact absurd hle (by decide +kernel)

end Ti3.Http.Transfer
