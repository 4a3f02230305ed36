import Ti3.Library.Rules
import Ti3.Library.Stdio
import Ti3.Uds.Datagrams

namespace Ti3.Uds.Parties

open Library.CString Library.CMemory Library.Interaction Library.Rules Datagrams

def newline : UInt8 := 10

/-- What `fgets` takes from a stream: up to the end of a line, but no more than
there is room for. -/
def lineWithin : Nat → Bytes → Bytes
  | 0, _ | _ + 1, [] => []
  | n + 1, b :: s => if b = newline then [b] else b :: lineWithin n s

/-- The string that a datagram starts with. -/
def text (d : Bytes) : Bytes := d.takeWhile (· ≠ 0)

/-- A whole buffer with a string in it. -/
def Whole (d : Bytes) : Prop := d.length = bufsize ∧ 0 ∈ d

/-- What a client sees: its standard input, and all it has sent. -/
structure Own where
  input : Bytes
  broken : Bool
  sent : List Bytes

def ownCalls (v : Own) : (c : Call) → Answer c → Own → Prop
  | .socket, _, v' => v' = v
  | .fgets size, a, v' =>
      (a = none ∧ v.input = [] ∧ v' = v) ∨
      (a = none ∧ v' = { v with broken := true }) ∨
      (lineWithin (size - 1) v.input ≠ [] ∧ a = some (lineWithin (size - 1) v.input) ∧
        v' = { v with input := v.input.drop (lineWithin (size - 1) v.input).length })
  | .ferror, a, v' => a = v.broken ∧ v' = v
  | .sendto _ bytes _, a, v' => (a = -1 ∧ v' = v) ∨
      (a = bytes.length ∧ v' = { v with sent := v.sent ++ [bytes] })
  | .bind _ _, _, _ | .recv _ _, _, _ | .fputs _, _, _ => False

theorem lineWithin_eq (n : Nat) (s : Bytes) : lineWithin n s = Library.Stdio.lineWithin n s := by
  induction n generalizing s with
  | zero => cases s <;> rfl
  | succ n ih =>
    cases s with
    | nil => rfl
    | cons b s =>
      rw [lineWithin, Library.Stdio.lineWithin, ih]
      rfl

theorem lineWithin_prefix (n : Nat) (s : Bytes) : lineWithin n s <+: s :=
  lineWithin_eq n s ▸ Library.Stdio.lineWithin_prefix n s

theorem length_lineWithin (n : Nat) (s : Bytes) : (lineWithin n s).length ≤ n :=
  lineWithin_eq n s ▸ Library.Stdio.length_lineWithin n s

/-- Whatever the buffer held, a line read into it is the string it starts with. -/
theorem whole_fill (buffer : Buffer bufsize) {line : Bytes} (hl : line.length < bufsize)
    (h : 0 ∉ line) : Whole (buffer.fill (line ++ [0])).bytes ∧
      text (buffer.fill (line ++ [0])).bytes = line := by
  have hfits : (line ++ [0]).length ≤ bufsize := by
    rw [List.length_append, List.length_singleton]
    omega
  have hsplit := fill_fits (m := buffer) hfits
  rw [List.append_assoc, List.singleton_append] at hsplit
  refine ⟨⟨Buffer.size _, ?_⟩, ?_⟩
  · rw [hsplit]
    simp
  · rw [text, hsplit, takeWhile_string h]

section

variable {input : Bytes} {v v' : Own} {o : Outcome Exit Unit}

/-- The strings sent, a line that is not sent yet, and the rest of the standard
input make up the standard input. -/
structure Sending (input pending : Bytes) (v : Own) : Prop where
  whole : ∀ d ∈ v.sent, Whole d
  split : v.sent.flatMap text ++ pending ++ v.input = input

/-- What a client has done, however it ends. -/
def Sent (input : Bytes) (o : Outcome Exit Unit) (v : Own) : Prop :=
  (∃ pending, Sending input pending v) ∧ (o = .returned () → v.sent.flatMap text = input)

theorem sent_early {pending : Bytes} (h : Sending input pending v) (ho : o ≠ .returned ()) :
    Sent input o v := ⟨⟨pending, h⟩, fun hr => absurd hr ho⟩

theorem sent_cut {pending : Bytes} (h : Sending input pending v) :
    Sent input .cut v ∧ ∀ e, Sent input (.halted e) v :=
  ⟨sent_early h nofun, fun _ => sent_early h nofun⟩

/-- A line is read. -/
theorem sending_read {line : Bytes} (h : Sending input [] v) (hl : line <+: v.input) :
    Sending input line { v with input := v.input.drop line.length } := by
  obtain ⟨rest, hr⟩ := hl
  refine ⟨h.whole, ?_⟩
  rw [← h.split, ← hr, List.drop_left, List.append_nil, List.append_assoc]

/-- A line is sent. -/
theorem sending_send {line d : Bytes} (h : Sending input line v) (hw : Whole d)
    (ht : text d = line) : Sending input [] { v with sent := v.sent ++ [d] } := by
  refine ⟨fun x hx => ?_, ?_⟩
  · obtain hx | hx := List.mem_append.mp hx
    · exact h.whole x hx
    · exact List.mem_singleton.mp hx ▸ hw
  · rw [← h.split, List.flatMap_append, List.flatMap_singleton, ht, List.append_nil]

theorem guarantees_errIf {α σ : Type} {env : Environment Call Answer σ} {w : σ}
    {P : Outcome Exit α → σ → Prop} {failed : Prop} [Decidable failed] {code : Nat}
    {message : Bytes} {k : Process α} (hP : P .cut w ∧ P (.halted (.status code message)) w)
    (hk : ¬ failed → Guarantees env k w P) :
    Guarantees env (do errIf failed code message; k) w P :=
  guarantees_unless hP hk

theorem guarantees_last {σ : Type} {env : Environment Call Answer σ} {w : σ}
    {P : Outcome Exit Unit → σ → Prop} {failed : Prop} [Decidable failed] {code : Nat}
    {message : Bytes} (hP : P .cut w ∧ P (.halted (.status code message)) w)
    (hk : ¬ failed → P (.returned ()) w) : Guarantees env (errIf failed code message) w P := by
  rw [errIf]
  split
  · exact guarantees_halt.mpr hP
  · next hf => exact guarantees_done.mpr ⟨hP.1, hk hf⟩

/-- One line after the other is sent, until the standard input ends or fails. -/
theorem send_guarantees {sockFd : Int} {path : Bytes} {buffer : Buffer bufsize}
    {k : Unit → Process Unit} (hfree : 0 ∉ input) (h : Sending input [] v) (hb : v.broken = false)
    (hk : ∀ v, Sending input [] v → v.broken = true ∨ v.input = [] →
      Guarantees ownCalls (k ()) v (Sent input)) :
    Guarantees ownCalls (.loop (sendStep sockFd path) buffer k) v (Sent input) := by
  refine guarantees_loop (fun _ v => Sending input [] v ∧ v.broken = false) ⟨h, hb⟩
    (fun buffer v ⟨h, hb⟩ => ?_)
  rw [sendStep]
  refine guarantees_call.mpr ⟨(sent_cut h).1, fun a v' ha => ?_⟩
  obtain ⟨rfl, hi, rfl⟩ | ⟨rfl, rfl⟩ | ⟨_, rfl, rfl⟩ := ha
  · exact guarantees_done.mpr ⟨(sent_cut h).1, hk v' h (.inr hi)⟩
  · have h' : Sending input [] { v with broken := true } := ⟨h.whole, h.split⟩
    exact guarantees_done.mpr ⟨(sent_cut h').1, hk _ h' (.inl rfl)⟩
  · have hpre := lineWithin_prefix (bufsize - 1) v.input
    have hline : 0 ∉ lineWithin (bufsize - 1) v.input := fun h₀ =>
      hfree (h.split ▸ List.mem_append_right _ (hpre.subset h₀))
    have hlen : (lineWithin (bufsize - 1) v.input).length < bufsize :=
      Nat.lt_of_le_of_lt (length_lineWithin _ _) (by decide)
    obtain ⟨hwhole, htext⟩ := whole_fill buffer hlen hline
    have hread := sending_read h hpre
    refine guarantees_call.mpr ⟨(sent_cut hread).1, fun a v' ha => ?_⟩
    obtain ⟨rfl, rfl⟩ | ⟨rfl, rfl⟩ := ha
    · exact guarantees_halt.mpr ⟨(sent_cut hread).1, (sent_cut hread).2 _⟩
    · have hsent := sending_send hread hwhole htext
      exact guarantees_done.mpr ⟨(sent_cut hsent).1, hsent, hb⟩

theorem client_guarantees {buffer : Buffer bufsize} {argv : List Bytes} (hfree : 0 ∉ input) :
    Guarantees ownCalls (client buffer argv) ⟨input, false, []⟩ (Sent input) := by
  have h : Sending input [] ⟨input, false, []⟩ := ⟨nofun, rfl⟩
  unfold client
  split
  · refine guarantees_call.mpr ⟨(sent_cut h).1, fun sockFd v' hv => ?_⟩
    cases hv
    refine guarantees_errIf ⟨(sent_cut h).1, (sent_cut h).2 _⟩ (fun _ => ?_)
    refine send_guarantees hfree h rfl (fun v h hend => ?_)
    refine guarantees_call.mpr ⟨(sent_cut h).1, fun broken v₁ ⟨hb, hv⟩ => ?_⟩
    cases hv
    refine guarantees_last ⟨(sent_cut h).1, (sent_cut h).2 _⟩ (fun he => ?_)
    have hi : v.input = [] := hend.resolve_left (hb ▸ he)
    have hall : v.sent.flatMap text = input := by
      rw [← h.split, hi, List.append_nil, List.append_nil]
    exact ⟨⟨[], h⟩, fun _ => hall⟩
  · exact guarantees_halt.mpr ⟨(sent_cut h).1, (sent_cut h).2 _⟩

end

variable {ι : Type}

/-- What the server sees: what it has received, its standard output, and whether
its last `recv` failed. -/
structure Printed (ι : Type) where
  delivered : List (ι × Bytes)
  output : Bytes
  failed : Bool

def printedCalls (v : Printed ι) : (c : Call) → Answer c → Printed ι → Prop
  | .socket, _, v' | .bind _ _, _, v' => v' = v
  | .recv _ size, a, v' => (a = none ∧ v' = { v with failed := true }) ∨
      ∃ i d, a = some (d.take size) ∧ v' = { v with delivered := v.delivered ++ [(i, d)] }
  | .fputs text, _, v' => v' = { v with output := v.output ++ text }
  | .fgets _, _, _ | .ferror, _, _ | .sendto _ _ _, _, _ => False

/-- The strings of the datagrams that were delivered. -/
def texts (delivered : List (ι × Bytes)) : Bytes := delivered.flatMap (fun x => text x.2)

section

variable {v v' : Printed ι} {o : Outcome Exit Unit}

/-- A whole buffer takes the place of what the server has received before. -/
theorem string_whole {buffer : Buffer bufsize} {d : Bytes} (h : Whole d) :
    (buffer.fill (d.take bufsize)).string (.inside 0) = some (text d) := by
  obtain ⟨hl, h₀⟩ := h
  have hfill : (buffer.fill (d.take bufsize)).bytes = d := by
    rw [List.take_of_length_le (Nat.le_of_eq hl), fill_fits (Nat.le_of_eq hl), hl,
      List.drop_of_length_le (Nat.le_of_eq buffer.size), List.append_nil]
  simp only [Buffer.string, hfill]
  rw [if_pos ⟨Int.le_refl 0, h₀⟩]
  rfl

/-- What the server has printed, as long as it gets whole buffers: the string of
the last datagram may be missing, but only until the server goes on. -/
def Prints (o : Outcome Exit Unit) (v : Printed ι) : Prop :=
  (∀ x ∈ v.delivered, Whole x.2) →
    v.output <+: texts v.delivered ∧
      (o ≠ .cut ∨ v.failed = true → v.output = texts v.delivered) ∧ o ≠ .halted .fault

theorem prints_all (h : (∀ x ∈ v.delivered, Whole x.2) → v.output = texts v.delivered)
    (ho : o ≠ .halted .fault) : Prints o v :=
  fun hw => ⟨h hw ▸ List.prefix_refl _, fun _ => h hw, ho⟩

/-- One datagram after the other is printed. -/
theorem receive_guarantees {sockFd : Int} {buffer : Buffer bufsize} {k : Int → Process Unit}
    (h : (∀ x ∈ v.delivered, Whole x.2) → v.output = texts v.delivered) (hf : v.failed = false)
    (hk : ∀ r (v : Printed ι),
      ((∀ x ∈ v.delivered, Whole x.2) → v.output = texts v.delivered) →
        Guarantees printedCalls (k r) v Prints) :
    Guarantees printedCalls (.loop (receiveStep sockFd) buffer k) v Prints := by
  refine guarantees_loop (fun _ v => ((∀ x ∈ v.delivered, Whole x.2) →
    v.output = texts v.delivered) ∧ v.failed = false) ⟨h, hf⟩ (fun buffer v ⟨h, hf⟩ => ?_)
  rw [receiveStep]
  simp only [recv, library, ask_bind]
  refine guarantees_call.mpr ⟨prints_all h nofun, fun a v' ha => ?_⟩
  obtain ⟨rfl, rfl⟩ | ⟨i, d, rfl, rfl⟩ := ha
  · exact guarantees_done.mpr ⟨prints_all h nofun, hk _ _ h⟩
  · let received : Printed ι := { v with delivered := v.delivered ++ [(i, d)] }
    have htexts : texts received.delivered = texts v.delivered ++ text d := by
      simp [received, texts]
    have hearlier (hw : ∀ x ∈ received.delivered, Whole x.2) : v.output = texts v.delivered :=
      h (fun x hx => hw x (List.mem_append_left _ hx))
    have hlast (hw : ∀ x ∈ received.delivered, Whole x.2) : Whole d :=
      hw (i, d) (List.mem_append_right _ (List.mem_singleton_self _))
    have hcut : Prints .cut received := fun hw => by
      rw [htexts, ← hearlier hw]
      refine ⟨List.prefix_append _ _, fun hc => ?_, nofun⟩
      obtain hc | hc := hc
      · exact absurd rfl hc
      · cases hf.symm.trans hc
    dsimp only
    split
    · split
      · next hs =>
        refine guarantees_halt.mpr ⟨hcut, fun hw => ?_⟩
        rw [string_whole (hlast hw)] at hs
        cases hs
      · next t hs =>
        refine guarantees_call.mpr ⟨hcut, fun _ v' hv => ?_⟩
        cases hv
        have hprinted (hw : ∀ x ∈ received.delivered, Whole x.2) :
            v.output ++ t = texts received.delivered := by
          rw [string_whole (hlast hw)] at hs
          rw [htexts, ← hearlier hw, Option.some.inj hs]
        exact guarantees_done.mpr ⟨prints_all hprinted nofun, hprinted, hf⟩
    · next hz =>
      refine guarantees_done.mpr ⟨hcut, hk 0 received (fun hw => absurd ?_ hz)⟩
      rw [List.length_take, (hlast hw).1]
      decide

theorem server_guarantees {buffer : Buffer bufsize} {argv : List Bytes} :
    Guarantees printedCalls (server buffer argv) (⟨[], [], false⟩ : Printed ι) Prints := by
  have h : (∀ x ∈ ([] : List (ι × Bytes)), Whole x.2) → [] = texts ([] : List (ι × Bytes)) :=
    fun _ => rfl
  unfold server
  split
  · refine guarantees_call.mpr ⟨prints_all h nofun, fun sockFd v' hv => ?_⟩
    cases hv
    refine guarantees_errIf ⟨prints_all h nofun, prints_all h nofun⟩ (fun _ => ?_)
    refine guarantees_call.mpr ⟨prints_all h nofun, fun bindRet v' hv => ?_⟩
    cases hv
    refine guarantees_errIf ⟨prints_all h nofun, prints_all h nofun⟩ (fun _ => ?_)
    refine receive_guarantees h rfl (fun r v h => ?_)
    exact guarantees_last ⟨prints_all h nofun, prints_all h nofun⟩ (fun _ => prints_all h nofun)
  · exact guarantees_halt.mpr ⟨prints_all h nofun, prints_all h nofun⟩

end

end Ti3.Uds.Parties
