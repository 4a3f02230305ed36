import Ti3.Crc.Remainder

namespace Ti3.Crc.Checksum

open Library.CString Library.Interaction Library.Rules Library.Determinism
open Library.DivisionRegister Library.CyclicCode Tool FileSystem Remainder

def highByte (r : BitVec 16) : UInt8 := ⟨((r.setWidth 32).sshiftRight 8).setWidth 8⟩

def lowByte (r : BitVec 16) : UInt8 := ⟨(r.setWidth 32 &&& 0x00ff).setWidth 8⟩

/-- A payload with its checksum behind it. -/
def checksummed (d : Bytes) : Bytes :=
  d ++ [highByte (crc (d ++ [0, 0])), lowByte (crc (d ++ [0, 0]))]

theorem toBitVec_highByte (r : BitVec 16) : (highByte r).toBitVec = r.extractLsb' 8 8 := by
  apply BitVec.eq_of_getLsbD_eq
  intro i hi
  have h32 : 8 + i < 32 := by omega
  have hn : ¬ 32 ≤ i := by omega
  simp [highByte, BitVec.getLsbD_sshiftRight, hi, h32, hn]

theorem toBitVec_lowByte (r : BitVec 16) : (lowByte r).toBitVec = r.extractLsb' 0 8 := by
  apply BitVec.eq_of_getLsbD_eq
  intro i hi
  have hm : ∀ i < 8, (0x00ff : BitVec 32).getLsbD i = true := by decide
  have h32 : i < 32 := by omega
  simp only [lowByte, BitVec.getLsbD_setWidth, BitVec.getLsbD_and, hm i hi, hi, h32]
  simp [hi]

theorem bytes_of_word (r : BitVec 16) : (highByte r).toBitVec ++ (lowByte r).toBitVec = r := by
  rw [toBitVec_highByte, toBitVec_lowByte]
  exact BitVec.extractLsb'_append_extractLsb'

theorem fileBits_append (d e : Bytes) : fileBits (d ++ e) = fileBits d ++ fileBits e :=
  List.flatMap_append

open Polynomial in
/-- The two bytes behind a payload are added to the remainder. -/
theorem crc_append_word (d : Bytes) (a b : UInt8) :
    crc (d ++ [a, b]) = crc (d ++ [0, 0]) ^^^ (a.toBitVec ++ b.toBitVec) := by
  have hb : ∀ a b : UInt8, ofBits (fileBits (d ++ [a, b])) =
      X ^ 16 * ofBits (fileBits d) + toPoly (a.toBitVec ++ b.toBitVec) := by
    intro a b
    have hl : (fileBits [a, b]).length = 16 := length_fileBits _
    have hw : fileBits [a, b] = wordBits (a.toBitVec ++ b.toBitVec) := by
      rw [wordBits_append]
      simp [fileBits]
    rw [fileBits_append, ofBits_append, hl, hw, ofBits_wordBits]
  apply toPoly_injective
  have hz : toPoly ((0 : UInt8).toBitVec ++ (0 : UInt8).toBitVec) = 0 := toPoly_zero
  have hr : toPoly (a.toBitVec ++ b.toBitVec) %ₘ generator poly =
      toPoly (a.toBitVec ++ b.toBitVec) := by
    rw [modByMonic_eq_self_iff (generator_monic poly), degree_generator]
    exact degree_toPoly_lt _
  rw [toPoly_xor, crc, crc, toPoly_divide (by omega), toPoly_divide (by omega), hb, hb, hz,
    add_zero, add_modByMonic, hr]

theorem crc_checksummed (d : Bytes) : crc (checksummed d) = 0 := by
  rw [checksummed, crc_append_word, bytes_of_word, BitVec.xor_self]
  rfl

variable {w : World} {file : Nat} {name : Name} {d : Bytes}

theorem calcCrcRem_onFile {pos n : Nat} (hn : d.length = n) (hd : 8 * n < 2 ^ 31) :
    Runs faultless (calcCrcRem .start file n) (onFile w file name d pos)
      (.returned (crc d, staticsAfter .start d (8 * n))) (onFile w file name d n) := by
  subst hn
  have hs : (onFile w file name d pos).streams file = some ⟨name, pos⟩ := streams_onFile
  have h := calcCrcRem_runs (s := .start) rfl hs files_onFile hd
  rwa [setStream_onFile] at h

/-- The file system after `calculate`. -/
def afterCalculate (w : World) (filename : Name) (d : Bytes) : World :=
  (onFile { w.setFile filename none with opened := w.opened + 1 } w.opened (filename ++ crcSuffix)
    (checksummed d) (d.length + 2)).setStream w.opened none

section

variable {base : World} {new : Name}

theorem perform_rename (hf : w.files name = some d) :
    perform w (.rename name new) = (0, (w.setFile name none).setFile new (some d)) := by
  simp only [perform, hf]

/-- The renamed file is opened. -/
theorem fopen_renamed : perform ((w.setFile name none).setFile new (some d))
    (.fopen new .readUpdate) = (.ok w.opened,
      onFile { w.setFile name none with opened := w.opened + 1 } w.opened new d 0) := by
  simp [perform, World.setFile, onFile, World.openStream, World.setStream]

theorem fseek_fileEnd : perform (onFile base file new d 0) (.fseek file 0 .fileEnd) =
    (0, onFile base file new d d.length) := perform_fseek_onFile _ _ _ (by simp)

theorem fputc_zero : (perform (onFile base file new d d.length) (.fputc 0 file)).2 =
    onFile base file new (d ++ [0]) (d.length + 1) := perform_fputc_end 0 rfl

theorem fputc_zeros : (perform (onFile base file new (d ++ [0]) (d.length + 1)) (.fputc 0 file)).2 =
    onFile base file new (d ++ [0, 0]) (d.length + 2) := by
  rw [perform_fputc_end 0 (by simp), List.append_assoc]
  rfl

end

theorem calculate_runs (hf : w.files name = some d) (hd : d.length + 2 < 2 ^ 28) :
    Runs faultless (calculate name) w (.returned ()) (afterCalculate w name d) := by
  rw [calculate, afterCalculate]
  simp only [rename, fopen, library, ask_bind, runs_handled_call, perform_rename hf, errIf_zero,
    Program.done_bind, fopen_renamed]
  generalize { w.setFile name none with opened := w.opened + 1 } = base
  generalize w.opened = file
  generalize name ++ crcSuffix = new
  have hsize : ¬ ((↑(d.length + 2) : Int) = 0) := by omega
  have hlen : (d ++ [0, 0]).length = d.length + 2 := by simp
  have hrem : Runs faultless _ (onFile base file new (d ++ [0, 0]) (d.length + 2)) _ _ :=
    calcCrcRem_onFile hlen (by omega)
  have hback : perform (onFile base file new (d ++ [0, 0]) (d.length + 2))
      (.fseek file (-checksumByteCnt) .fileEnd) =
      (0, onFile base file new (d ++ [0, 0]) d.length) :=
    perform_fseek_onFile _ _ _ (by simp [checksumByteCnt])
  have hhigh (c : BitVec 32) : (perform (onFile base file new (d ++ [0, 0]) d.length)
      (.fputc c file)).2 = onFile base file new (d ++ [⟨c.setWidth 8⟩, 0]) (d.length + 1) :=
    perform_fputc_over c 0 [0] rfl
  have hlow (b : UInt8) (c : BitVec 32) :
      (perform (onFile base file new (d ++ [b, 0]) (d.length + 1)) (.fputc c file)).2 =
        onFile base file new (d ++ [b, ⟨c.setWidth 8⟩]) (d.length + 2) := by
    rw [List.append_cons, perform_fputc_over c 0 [] (by simp), ← List.append_cons]
  simp only [fseek, fputc, ftell, library, ask_bind, runs_handled_call, fseek_fileEnd, errIf_zero,
    Program.done_bind, fputc_zero, fputc_zeros, perform_ftell_onFile, errIf_neg hsize]
  rw [runs_bind]
  refine .next hrem ?_
  simp only [fclose, library, ask_bind, runs_handled_call, hback, errIf_zero, Program.done_bind,
    hhigh, hlow, perform_fclose_onFile, runs_handled_done, true_and]
  rfl

/-- The file system after the remainder test. -/
def afterTest (w : World) (infilename : Name) (d : Bytes) : World :=
  { w with opened := w.opened + 1 }.setStream w.opened (some ⟨infilename, d.length⟩)

theorem remainderTest_runs (hf : w.files name = some d) (hd : d.length < 2 ^ 28) :
    Runs faultless (remainderTest name) w
      (.returned (w.opened, (d.length : Int), decide (crc d = 0))) (afterTest w name d) := by
  have hs : (w.openStream name).streams w.opened = some ⟨name, 0⟩ := streams_setStream _
  have hrem := calcCrcRem_runs (s := .start) rfl hs hf (by omega)
  rw [remainderTest]
  simp only [stat, fopen, library, ask_bind, runs_handled_call, perform, hf, Option.map_some]
  rw [runs_bind]
  refine .next hrem ?_
  simp [afterTest, World.openStream, World.setStream]

/-- The verdict of `validate` on a content, whatever the file system around it. -/
def Verdict (d : Bytes) (verified : Bool) : Prop :=
  ∀ (w : World) (name : Name), w.files name = some d →
    Yields faultless (remainderTest name) w (fun r _ => r.2.2 = verified)

/-- The content that `calculate` makes of another. -/
def Calculates (d e : Bytes) : Prop :=
  ∀ (w : World) (name : Name), w.files name = some d →
    Yields faultless (calculate name) w (fun _ w' => w'.files (name ++ crcSuffix) = some e)

/-- A file system with a single file. -/
def single (name : Name) (d : Bytes) : World :=
  ⟨Function.update (fun _ => none) name (some d), fun _ => none, 0⟩

theorem files_single : (single name d).files name = some d := by simp [single]

theorem verdict_iff {verified : Bool} (hd : d.length < 2 ^ 28) :
    Verdict d verified ↔ decide (crc d = 0) = verified := by
  refine ⟨fun h => ?_, fun h w name hf => ?_⟩
  · exact yields_returned (Q := fun r _ => r.2.2 = verified) (h (single [] d) [] files_single)
      (remainderTest_runs files_single hd)
  · exact yields_of_runs (remainderTest_runs hf hd) h

theorem files_afterCalculate :
    (afterCalculate w name d).files (name ++ crcSuffix) = some (checksummed d) :=
  Function.update_self _ _ _

theorem calculates_iff {e : Bytes} (hd : d.length + 2 < 2 ^ 28) :
    Calculates d e ↔ e = checksummed d := by
  constructor
  · intro h
    have hy := yields_returned (h (single [] d) [] files_single)
      (calculate_runs files_single hd)
    rw [files_afterCalculate] at hy
    exact (Option.some.inj hy).symm
  · rintro rfl w name hf
    exact yields_of_runs (calculate_runs hf hd) files_afterCalculate

theorem checksummed_iff (a b : UInt8) : crc (d ++ [a, b]) = 0 ↔ d ++ [a, b] = checksummed d := by
  refine ⟨fun h => ?_, fun h => ?_⟩
  · rw [crc_append_word] at h
    have he : crc (d ++ [0, 0]) = a.toBitVec ++ b.toBitVec := BitVec.xor_eq_zero_iff.mp h
    have ha : highByte (crc (d ++ [0, 0])) = a := by
      rw [← UInt8.toBitVec_inj, toBitVec_highByte, he]
      exact BitVec.extractLsb'_append_eq_left
    have hb : lowByte (crc (d ++ [0, 0])) = b := by
      rw [← UInt8.toBitVec_inj, toBitVec_lowByte, he]
      exact BitVec.extractLsb'_append_eq_right
    rw [checksummed, ha, hb]
  · rw [h]
    exact crc_checksummed d

end Ti3.Crc.Checksum
