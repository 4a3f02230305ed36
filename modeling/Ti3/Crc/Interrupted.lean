import Ti3.Crc.Failures
import Ti3.Crc.RoundTrip
import Ti3.Library.Execution

namespace Ti3.Crc.Interrupted

open Library.CString Library.Interaction Library.Rules Library.Execution Tool Failures
open FileSystem (guarantees_errIf)

variable {files : Name → Option Bytes} {infile outfile : Nat} {name out : Name} {e u : Bytes}
variable {w w' : World}

/-- The output holds the first bytes of the input, and no other file has
changed. -/
def Left (files : Name → Option Bytes) (out : Name) (e : Bytes) (w : World) : Prop :=
  ∃ x, x <+: e ∧ w.files = Function.update files out (some x)

/-- The output holds what stands before the checksum, and the input is gone. -/
def Complete (files : Name → Option Bytes) (name out : Name) (e : Bytes) (w : World) : Prop :=
  ∃ u, w.files = Function.update (Function.update files out (some u)) name none ∧
    (2 ≤ e.length → e.length < 2 ^ 28 → u = e.take (e.length - 2))

/-- What `validate` leaves behind, however it ends: nothing has changed, or there
is a new file, or that file is complete and the old one removed. -/
def Validated (files : Name → Option Bytes) (name : Name) (e : Bytes) (o : Outcome Exit Unit)
    (w : World) : Prop :=
  w.files = files ∨ ∃ out, name = out ++ crcSuffix ∧ files out = none ∧
    (Left files out e w ∨ (Complete files name out e w ∧ ∀ x, o ≠ .halted x))

/-- The output is being written, and the input is at a position. -/
structure Copying (files : Name → Option Bytes) (name out : Name) (infile outfile p : Nat)
    (u : Bytes) (w : World) : Prop where
  output : Writing files out [] u outfile w
  input : w.streams infile = some ⟨name, p, []⟩
  apart : infile ≠ outfile

theorem writing_left (h : Writing files out [] u outfile w) (hu : u <+: e) :
    Left files out e w := by
  obtain ⟨k, _, hd, _⟩ := h.stored
  exact ⟨u.take k, (List.take_prefix _ _).trans hu, hd⟩

theorem left_validated (hname : name = out ++ crcSuffix) (hfresh : files out = none)
    (h : Left files out e w) :
    Validated files name e .cut w ∧ ∀ x, Validated files name e (.halted x) w :=
  ⟨.inr ⟨out, hname, hfresh, .inl h⟩, fun _ => .inr ⟨out, hname, hfresh, .inl h⟩⟩

theorem Copying.settle {p : Nat} (h : Copying files name out infile outfile p u w)
    (hs : Settle w w') : Copying files name out infile outfile p u w' := by
  refine ⟨h.output.settle hs, ?_, h.apart⟩
  obtain ⟨_, _, _, hf⟩ := h.output.stored
  obtain ⟨_, _, _, _, _, rfl⟩ := quiet_cases h.output.quiet hs hf
  exact (setStream_other h.apart).trans h.input

theorem Copying.move {p : Nat} (h : Copying files name out infile outfile p u w) (pos : Nat) :
    Copying files name out infile outfile pos u
      (w.setStream infile (some ⟨name, pos, []⟩)) := by
  refine ⟨h.output.beside h.apart (fun s hs => ?_), setStream_same, h.apart⟩
  cases hs
  rfl

theorem Copying.put {p : Nat} (h : Copying files name out infile outfile p u w) (bytes : Bytes)
    {s : Stream} (hs : w.streams outfile = some s) :
    Copying files name out infile outfile p (u ++ bytes) (w.put outfile s bytes) :=
  ⟨h.output.put bytes hs, (setStream_other h.apart).trans h.input, h.apart⟩

theorem still_forget {s : Stream} (h : Writing files out [] u outfile w) :
    Still (w.forget outfile s) := still_setStream h.quiet _

theorem append_isPrefix {bytes : Bytes} (hu : u <+: e) (hb : bytes <+: e.drop u.length) :
    u ++ bytes <+: e := by
  obtain ⟨v, rfl⟩ := hu
  rw [List.drop_left] at hb
  exact (List.prefix_append_right_inj u).mpr hb

section

variable {α : Type} {P : Outcome Exit α → World → Prop}

/-- A failed write leaves a part of the output. -/
theorem spoiled_left {bytes : Bytes} {p : Nat} {s : Stream}
    (h : Copying files name out infile outfile p u w) (hs : w.streams outfile = some s)
    {w₁ : World} (hw : Spoiled w outfile s bytes w₁) (hu : u ++ bytes <+: e)
    (hset : Relation.ReflTransGen Settle w₁ w') : Left files out e w' := by
  obtain ⟨k, rfl⟩ | rfl := hw
  · have hput := h.put (bytes.take k) hs
    have hk : u ++ bytes.take k <+: e :=
      ((List.prefix_append_right_inj u).mpr (List.take_prefix k bytes)).trans hu
    exact writing_left (settled (fun _ _ hs h => Copying.settle h hs) hput hset).output hk
  · rw [still_settles (still_forget h.output) hset]
    obtain ⟨k, _, hd, _⟩ := h.output.stored
    exact ⟨u.take k, (List.take_prefix _ _).trans ((List.prefix_append _ _).trans hu), hd⟩

/-- Some bytes are copied. -/
theorem copy_guarantees (count : Nat) (c₁ c₂ : Nat) (m₁ m₂ : Bytes) (k : Process α)
    (h : Copying files name out infile outfile u.length u w) (hu : u <+: e)
    (he : files name = some e) (hne : name ≠ out)
    (hP : ∀ w, Left files out e w → P .cut w ∧ ∀ x, P (.halted x) w)
    (hk : ∀ bytes w', bytes.length = count → u ++ bytes <+: e →
      Copying files name out infile outfile (u ++ bytes).length (u ++ bytes) w' →
      Guarantees flaky k w' P) : Guarantees flaky (do
        let buffer ← fread count infile
        errIf (buffer.length ≠ count) c₁ m₁
        errIf ((← fwrite buffer outfile) ≠ count) c₂ m₂
        k) w P := by
  refine guarantees_library (fun _ _ _ _ h => h) (hP w (writing_left h.output hu)).1
    (fun bytes w₁ ha w₁' hs => ?_)
  obtain ⟨hb, hread⟩ : u ++ bytes <+: e ∧
      Copying files name out infile outfile (u.length + bytes.length) u w₁ := by
    obtain ⟨rfl, rfl⟩ | ⟨s, d, ht, _, hd, hb, rfl⟩ := ha
    · rw [List.append_nil]
      exact ⟨hu, h⟩
    · obtain rfl := Option.some.inj (h.input.symm.trans ht)
      obtain ⟨_, _, hfiles, _⟩ := h.output.stored
      rw [hfiles, Function.update_of_ne hne, he] at hd
      cases hd
      exact ⟨append_isPrefix hu (hb.trans (List.take_prefix _ _)), h.move _⟩
  have hread := settled (fun _ _ hs h => Copying.settle h hs) hread hs
  refine guarantees_errIf (hP _ (writing_left hread.output hu)) (fun hlen => ?_)
  have hlen := not_not.mp hlen
  refine guarantees_library (fun _ _ _ _ h => h) (hP _ (writing_left hread.output hu)).1
    (fun written w₂ ha w₂' hs => ?_)
  obtain ⟨_, _, _, hf⟩ := hread.output.stored
  simp only [effect, hf] at ha
  obtain ⟨rfl, rfl⟩ | ⟨hlt, hw⟩ := ha
  · have hput := settled (fun _ _ hs h => Copying.settle h hs) (hread.put bytes hf) hs
    refine guarantees_errIf (hP _ (writing_left hput.output hb)) (fun _ => ?_)
    rw [← List.length_append] at hput
    exact hk bytes w₂' hlen hb hput
  · exact guarantees_errIf (hP _ (spoiled_left hread hf hw hb hs))
      (fun hn => absurd ((not_not.mp hn).trans hlen.symm) (Nat.ne_of_lt hlt))

/-- After so many whole blocks, if the size is one that `int` can count. -/
def Blocks (e u : Bytes) (i : Int) : Prop := 2 ≤ e.length → e.length < 2 ^ 28 →
  ∃ n : Nat, i = n ∧ n ≤ (e.length - 2) / bufsize ∧ u.length = bufsize * n

/-- The whole blocks are copied one by one. -/
theorem blocks_guarantees (h : Copying files name out infile outfile 0 [] w)
    (he : files name = some e) (hne : name ≠ out) : Guarantees flaky
      (.loop (copyStep name out infile outfile (((e.length : Int) - checksumByteCnt).tdiv bufsize))
        0 .done) w
      (fun o w' => Left files out e w' ∧ ∀ c, o = .returned c → ∃ u, u <+: e ∧
        (2 ≤ e.length → e.length < 2 ^ 28 → u.length = bufsize * ((e.length - 2) / bufsize)) ∧
          Copying files name out infile outfile u.length u w') := by
  refine guarantees_loop (fun i w => ∃ u, u <+: e ∧ Blocks e u i ∧
    Copying files name out infile outfile u.length u w)
    ⟨[], List.nil_prefix, fun _ _ => ⟨0, rfl, Nat.zero_le _, rfl⟩, h⟩ ?_
  rintro i w ⟨u, hu, hi, hc⟩
  have hleft := writing_left hc.output hu
  rw [copyStep]
  split
  · next hlt =>
    refine copy_guarantees _ _ _ _ _ _ hc hu he hne (fun w h => ends_early h)
      (fun bytes w' hlen hb hc => ?_)
    have hleft := writing_left hc.output hb
    refine guarantees_done.mpr ⟨(ends_early hleft).1, _, hb, fun h₂ hsize => ?_, hc⟩
    obtain ⟨n, rfl, _, hul⟩ := hi h₂ hsize
    rw [RoundTrip.portionsCnt_eq h₂] at hlt
    have hn : n < (e.length - 2) / bufsize := by exact_mod_cast hlt
    have hle : (e.length - 2) / bufsize ≤ e.length - 2 := Nat.div_le_self _ _
    refine ⟨n + 1, Remainder.toInt_of_lt (x := n + 1) (by omega), hn, ?_⟩
    rw [List.length_append, hul, hlen, Nat.mul_succ]
  · next hge =>
    refine guarantees_done.mpr ⟨(ends_early hleft).1, ?_⟩
    refine guarantees_done.mpr ⟨(ends_early hleft).1, hleft,
      fun _ _ => ⟨u, hu, fun h₂ hsize => ?_, hc⟩⟩
    obtain ⟨n, rfl, hn, hul⟩ := hi h₂ hsize
    rw [RoundTrip.portionsCnt_eq h₂] at hge
    have hn' : (e.length - 2) / bufsize ≤ n := by exact_mod_cast not_lt.mp hge
    rw [hul, Nat.le_antisymm hn hn']

/-- How the copy ends: what has been written is what stands before the checksum. -/
def Copied (files : Name → Option Bytes) (name out : Name) (infile outfile : Nat) (e : Bytes)
    (o : Outcome Exit Unit) (w : World) : Prop :=
  Left files out e w ∧ (o = .returned () → ∃ u, u <+: e ∧
    (2 ≤ e.length → e.length < 2 ^ 28 → u = e.take (e.length - 2)) ∧
      Copying files name out infile outfile u.length u w)

theorem copied_early (h : Left files out e w) :
    Copied files name out infile outfile e .cut w ∧
      ∀ x, Copied files name out infile outfile e (.halted x) w :=
  ⟨⟨h, fun ho => by cases ho⟩, fun _ => ⟨h, fun ho => by cases ho⟩⟩

/-- Behind the whole blocks comes what is left before the checksum. -/
theorem copyWithoutChecksum_guarantees (h : Copying files name out infile outfile 0 [] w)
    (he : files name = some e) (hne : name ≠ out) :
    Guarantees flaky (copyWithoutChecksum name out infile outfile e.length) w
      (Copied files name out infile outfile e) := by
  rw [copyWithoutChecksum]
  refine guarantees_bind (guarantees_mono (blocks_guarantees h he hne) (fun o w hr => ?_))
  obtain ⟨hleft, hret⟩ := hr
  cases o with
  | cut => exact (copied_early hleft).1
  | halted x => exact (copied_early hleft).2 x
  | returned c =>
    obtain ⟨u, hu, hl, hc⟩ := hret c rfl
    have hend := copy_guarantees (toSize (toInt (e.length -
        ((e.length : Int) - checksumByteCnt).tdiv bufsize * bufsize - checksumByteCnt))) errIo errIo
      (ascii "Error reading from " ++ name) (ascii "Error writing to " ++ out) (pure ()) hc hu he
      hne (P := Copied files name out infile outfile e)
      (fun w h => copied_early h) (fun bytes w' hlen hb hc => ?_)
    · simp only [bind_pure_unit] at hend
      exact hend
    · have hleft := writing_left hc.output hb
      refine guarantees_done.mpr ⟨(copied_early hleft).1, hleft,
        fun _ => ⟨_, hb, fun h₂ hsize => ?_, hc⟩⟩
      have hlt : (e.length - 2) % bufsize < 2 ^ 64 :=
        Nat.lt_of_le_of_lt (Nat.mod_le _ _) (by omega)
      rw [RoundTrip.portionsCnt_eq h₂, RoundTrip.yetToReadCnt_eq h₂ hsize,
        RoundTrip.toSize_of_lt hlt] at hlen
      have hall : (u ++ bytes).length = e.length - 2 := by
        rw [List.length_append, hl h₂ hsize, hlen, Nat.div_add_mod]
      rw [← hall]
      exact List.prefix_iff_eq_take.mp hb

/-- Only a complete output that has been closed is followed by the removal of
the input. -/
theorem finish_guarantees {c₁ c₂ c₃ : Nat} {m₁ m₂ m₃ : Bytes} (hname : name = out ++ crcSuffix)
    (hfresh : files out = none) (hu : u <+: e)
    (hall : 2 ≤ e.length → e.length < 2 ^ 28 → u = e.take (e.length - 2))
    (h : Copying files name out infile outfile u.length u w) : Guarantees flaky (do
      errIf ((← fclose infile) = -1) c₁ m₁
      errIf ((← fclose outfile) = -1) c₂ m₂
      errIf ((← unlink name) = -1) c₃ m₃) w (Validated files name e) := by
  have hend (w : World) (h : Left files out e w) := left_validated hname hfresh h
  refine guarantees_library (fun _ _ _ _ h => h) (hend w (writing_left h.output hu)).1
    (fun a w₁ ha w₁' hs => ?_)
  obtain ⟨rfl, _⟩ := ha
  have hclosed : Writing files out [] u outfile (w.setStream infile none) :=
    h.output.beside h.apart (fun _ hs => by cases hs)
  have hclosed := settled (fun _ _ hs h => Writing.settle h hs) hclosed hs
  refine guarantees_errIf (hend _ (writing_left hclosed hu)) (fun _ => ?_)
  refine guarantees_library (fun _ _ _ _ h => h) (hend _ (writing_left hclosed hu)).1
    (fun a w₂ ha w₂' hs => ?_)
  obtain ⟨rfl, ha⟩ := ha
  have hstill : Still (w₁'.setStream outfile none) := still_close hclosed.quiet
  rw [still_settles hstill hs]
  obtain ⟨k, hk, hd, hf⟩ := hclosed.stored
  have hleft : Left files out e (w₁'.setStream outfile none) :=
    ⟨u.take k, (List.take_prefix _ _).trans hu, hd⟩
  refine guarantees_errIf (hend _ hleft) (fun hok => ?_)
  obtain rfl | ⟨_, hp⟩ := ha
  · exact absurd rfl hok
  have hk' : u.length ≤ k := List.drop_eq_nil_iff.mp (hp _ hf)
  rw [List.take_of_length_le hk', List.nil_append] at hd
  refine guarantees_library (fun _ _ _ _ h => h) (hend _ hleft).1 (fun a w₃ ha w₃' hs => ?_)
  obtain ⟨rfl, rfl⟩ | ⟨rfl, _, rfl⟩ := ha
  · rw [still_settles hstill hs, errIf, if_pos rfl]
    exact guarantees_halt.mpr ⟨(hend _ hleft).1, (hend _ hleft).2 _⟩
  · have hgone : Still ((w₁'.setStream outfile none).setFile name none) := hstill
    rw [still_settles hgone hs]
    have hcomplete : Complete files name out e ((w₁'.setStream outfile none).setFile name none) :=
      ⟨u, by rw [World.setFile, setStream_files, hd], hall⟩
    exact guarantees_done.mpr ⟨.inr ⟨out, hname, hfresh, .inr ⟨hcomplete, fun _ he => by cases he⟩⟩,
      .inr ⟨out, hname, hfresh, .inr ⟨hcomplete, fun _ he => by cases he⟩⟩⟩

end

/-- The test of the remainder reads the input. -/
theorem remainderTest_guarantees (hname : files name = some e) :
    Guarantees flaky (remainderTest name) (World.start files) (fun o w => w.files = files ∧
      ∀ r, o = .returned r → r.2.1 = e.length ∧ Reading files r.1 name w) := by
  have hstart (w' : World) (hs : Relation.ReflTransGen Settle (World.start files) w') :
      w' = World.start files := still_settles (still_start files) hs
  rw [remainderTest]
  refine guarantees_library (fun _ _ _ _ h => h) (ends_early rfl).1 (fun a w₁ ha w hs => ?_)
  obtain ⟨rfl, ha⟩ := ha
  rw [hstart w hs]
  obtain rfl | ⟨d, hd, rfl⟩ := ha
  · exact guarantees_halt.mpr ⟨(ends_early rfl).1, (ends_early rfl).2 _⟩
  obtain rfl : e = d := Option.some.inj (hname.symm.trans hd)
  refine guarantees_library (fun _ _ _ _ h => h) (ends_early rfl).1 (fun a w₁ ha w hs => ?_)
  obtain ⟨rfl, _, rfl⟩ | ⟨file, _, _, rfl, rfl⟩ := ha
  · rw [hstart w hs]
    exact guarantees_halt.mpr ⟨(ends_early rfl).1, (ends_early rfl).2 _⟩
  have hread : Reading files file name
      ((World.start files).setStream file (some ⟨name, 0, []⟩)) :=
    ⟨rfl, ⟨0, setStream_same⟩, quiet_setStream (fun _ _ _ hs => by cases hs)⟩
  rw [still_settles hread.still hs]
  have hstay (w w' : World) (hs : Settle w w') (h : Reading files file name w) :
      Reading files file name w' := absurd hs (not_settle h.still)
  simp only [calcCrcRem, bind_assoc]
  refine fseek_guarantees (fun _ _ _ _ h => h) setStream_same hread.quiet hstay hread
    (hread.move 0) (fun w h => ends_early h.unchanged)
    (fun _ d pos _ _ => ?_)
  refine guarantees_bind (guarantees_mono
    (division_guarantees (fun _ _ _ _ h => h) _ _ (hread.move pos)) (fun o w h => ?_))
  cases o with
  | cut => exact (ends_early h.unchanged).1
  | halted x => exact (ends_early h.unchanged).2 x
  | returned r =>
    refine guarantees_done.mpr ⟨(ends_early h.unchanged).1, h.unchanged, fun r hr => ?_⟩
    cases hr
    exact ⟨rfl, h⟩

/-- The output has been created. -/
theorem reading_copying (h : Reading files infile name w) (hfree : w.streams outfile = none) :
    ∃ p, Copying files name out infile outfile p []
      ((w.setFile out (some [])).setStream outfile (some ⟨out, 0, []⟩)) := by
  obtain ⟨p, hp⟩ := h.place
  have hne : infile ≠ outfile := by
    rintro rfl
    rw [hfree] at hp
    cases hp
  refine ⟨p, ⟨?_, 0, Nat.le_refl _, ?_, setStream_same⟩, (setStream_other hne).trans hp, hne⟩
  · intro file s hf hs
    rw [setStream_other hf] at hs
    exact h.still file s hs
  · rw [setStream_files, World.setFile, h.unchanged]
    rfl

theorem validate_guarantees (hname : files name = some e) :
    Guarantees flaky (validate name) (World.start files) (Validated files name e) := by
  have hsame (w : World) (h : w.files = files) : Validated files name e .cut w ∧
      ∀ x, Validated files name e (.halted x) w := ⟨.inl h, fun _ => .inl h⟩
  rw [validate]
  refine guarantees_bind (guarantees_mono (remainderTest_guarantees hname) (fun o w hw => ?_))
  obtain ⟨h, hr⟩ := hw
  cases o with
  | cut | halted _ => exact .inl h
  | returned r =>
  obtain ⟨infile, size, verified⟩ := r
  obtain ⟨rfl, hread⟩ := hr _ rfl
  cases verified with
  | false => exact guarantees_halt.mpr ⟨(hsame w h).1, (hsame w h).2 _⟩
  | true =>
    cases hi : lastIndex dot name with
    | none => exact guarantees_halt.mpr ⟨(hsame w h).1, (hsame w h).2 _⟩
    | some i =>
    refine guarantees_errIf (hsame w h) (fun hsuffix => ?_)
    have hsuffix : name = name.take i ++ crcSuffix := by
      rw [← not_not.mp hsuffix, List.take_append_drop]
    have hne : name ≠ name.take i := by
      intro hn
      exact RoundTrip.append_suffix_ne _ (hsuffix.symm.trans hn)
    refine guarantees_library (fun _ _ _ _ h => h) (hsame w h).1 (fun a w₁ ha w' hs => ?_)
    obtain ⟨rfl, x, rfl⟩ | ⟨outfile, hfree, hfresh, rfl, rfl⟩ := ha
    · rw [still_settles hread.still hs]
      cases x with
      | eexist | other => exact guarantees_halt.mpr ⟨(hsame _ h).1, (hsame _ h).2 _⟩
    have hquiet : Quiet outfile (w.setFile (name.take i) (some [])) :=
      fun file s _ hf => hread.still file s hf
    have hstill : Still ((w.setFile (name.take i) (some [])).setStream outfile
        (some ⟨name.take i, 0, []⟩)) := still_setStream hquiet 0
    rw [still_settles hstill hs]
    obtain ⟨p, hcopy⟩ : ∃ p, Copying files name (name.take i) infile outfile p []
        ((w.setFile (name.take i) (some [])).setStream outfile (some ⟨name.take i, 0, []⟩)) :=
      reading_copying hread hfree
    have hfresh : files (name.take i) = none := h ▸ hfresh
    have hend (w : World) (hl : Left files (name.take i) e w) :=
      left_validated hsuffix hfresh hl
    have hstay (w w' : World) (hs : Settle w w')
        (h : ∃ p, Copying files name (name.take i) infile outfile p [] w) :
        ∃ p, Copying files name (name.take i) infile outfile p [] w' := by
      obtain ⟨p, h⟩ := h
      exact ⟨p, h.settle hs⟩
    have hwriting (w : World)
        (h : ∃ p, Copying files name (name.take i) infile outfile p [] w) :
        Validated files name e .cut w ∧ ∀ x, Validated files name e (.halted x) w := by
      obtain ⟨p, h⟩ := h
      exact hend w (writing_left h.output List.nil_prefix)
    refine fseek_guarantees (fun _ _ _ _ h => h) hcopy.input (fun file s _ hs => hstill file s hs)
      hstay ⟨p, hcopy⟩ ⟨p, hcopy.move p⟩
      hwriting (fun _ d pos _ hpos => ?_)
    obtain rfl : pos = 0 := by
      simp only [target] at hpos
      exact_mod_cast hpos.symm
    refine guarantees_bind (guarantees_mono
      (copyWithoutChecksum_guarantees (hcopy.move 0) hname hne) (fun o w hw => ?_))
    obtain ⟨hl, hr⟩ := hw
    cases o with
    | cut => exact (hend w hl).1
    | halted x => exact (hend w hl).2 x
    | returned _ =>
      obtain ⟨u, hu, hall, hcopy⟩ := hr rfl
      exact finish_guarantees hsuffix hfresh hu hall hcopy

end Ti3.Crc.Interrupted
