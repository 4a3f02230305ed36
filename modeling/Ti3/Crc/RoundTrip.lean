import Ti3.Crc.Checksum

namespace Ti3.Crc.RoundTrip

open Library.CString Library.Interaction Library.Rules Library.Determinism
open Tool FileSystem Remainder Checksum

variable {w : World} {infile outfile : Nat} {infilename outfilename : Name} {e : Bytes}

/-- The file system once `p` bytes have been copied: the input stream and the
output behind each other. -/
def copied (w : World) (infile outfile : Nat) (infilename outfilename : Name) (e : Bytes)
    (p : Nat) : World :=
  onFile (onFile w infile infilename e p) outfile outfilename (e.take p) p

theorem fread_copied (hs : infile ≠ outfile) (hn : infilename ≠ outfilename) {p count : Nat}
    (hp : p + count ≤ e.length) :
    perform (copied w infile outfile infilename outfilename e p) (.fread count infile) =
      ((e.drop p).take count, onFile (onFile w infile infilename e (p + count)) outfile outfilename
        (e.take p) p) := by
  have hb : (copied w infile outfile infilename outfilename e p).behind infile =
      some (⟨infilename, p⟩, e) := by
    apply behind_eq
    · simp [copied, onFile, World.setStream, hs, World.setFile]
    · simp [copied, onFile, World.setStream, hn, World.setFile]
  have hl : ((e.drop p).take count).length = count := by
    rw [List.length_take, List.length_drop]
    omega
  simp only [perform, hb, hl]
  simp only [copied, onFile, World.setStream, World.setFile, Function.update_idem,
    Function.update_comm hs]

theorem fwrite_copied {p count : Nat} (hp : p + count ≤ e.length) :
    perform (onFile (onFile w infile infilename e (p + count)) outfile outfilename (e.take p) p)
      (.fwrite ((e.drop p).take count) outfile) =
      (count, copied w infile outfile infilename outfilename e (p + count)) := by
  have hl : ((e.drop p).take count).length = count := by
    rw [List.length_take, List.length_drop]
    omega
  have ho := overwrite_end (e.take p) ((e.drop p).take count)
  rw [List.length_take, Nat.min_eq_left (by omega), ← List.take_add] at ho
  simp only [perform, behind_onFile, write_onFile, hl, ho, copied]

/-- Copying some bytes, as both the loop and what follows it do. -/
theorem copy_runs {α : Type} (c₁ c₂ : Nat) (m₁ m₂ : Bytes) (k : Process α)
    (hs : infile ≠ outfile) (hn : infilename ≠ outfilename) {p count : Nat}
    (hp : p + count ≤ e.length) {a : α} {w' : World}
    (hk : Runs faultless k (copied w infile outfile infilename outfilename e (p + count))
      (.returned a) w') :
    Runs faultless (do
      let buffer ← fread count infile
      errIf (buffer.length ≠ count) c₁ m₁
      errIf ((← fwrite buffer outfile) ≠ count) c₂ m₂
      k) (copied w infile outfile infilename outfilename e p) (.returned a) w' := by
  have hl : ((e.drop p).take count).length = count := by
    rw [List.length_take, List.length_drop]
    omega
  simp only [fread, fwrite, library, ask_bind]
  rw [runs_handled_answer (fread_copied hs hn hp), hl, errIf_neg (not_not.mpr rfl),
    Program.done_bind, runs_handled_answer (fwrite_copied hp), errIf_neg (not_not.mpr rfl)]
  exact hk

theorem toSize_of_lt {x : Nat} (h : x < 2 ^ 64) : toSize x = x := by
  rw [toSize]
  omega

theorem portionsCnt_eq (h₂ : 2 ≤ e.length) :
    ((e.length : Int) - checksumByteCnt).tdiv bufsize = ↑((e.length - 2) / bufsize) := by
  have hc : (e.length : Int) - checksumByteCnt = ↑(e.length - 2) := by
    simp only [checksumByteCnt]
    omega
  rw [hc]
  rfl

/-- What the whole blocks leave. -/
theorem yetToReadCnt_eq (h₂ : 2 ≤ e.length) (he : e.length < 2 ^ 28) :
    toInt (e.length - ((e.length - 2) / bufsize : Nat) * bufsize - checksumByteCnt) =
      ↑((e.length - 2) % bufsize) := by
  have hm : bufsize * ((e.length - 2) / bufsize) + (e.length - 2) % bufsize = e.length - 2 :=
    Nat.div_add_mod _ _
  have hc : (e.length : Int) - ((e.length - 2) / bufsize : Nat) * bufsize - checksumByteCnt =
      ↑((e.length - 2) % bufsize) := by
    simp only [checksumByteCnt]
    rw [mul_comm]
    omega
  rw [hc]
  exact toInt_of_lt (by omega)

theorem copyStep_runs (hs : infile ≠ outfile) (hn : infilename ≠ outfilename)
    (he : e.length < 2 ^ 28) {n i : Nat} (hi : i < n) (hl : bufsize * n ≤ e.length) :
    Runs faultless (copyStep infilename outfilename infile outfile ↑n ↑i)
      (copied w infile outfile infilename outfilename e (bufsize * i)) (.returned (.inl ↑(i + 1)))
      (copied w infile outfile infilename outfilename e (bufsize * (i + 1))) := by
  have hlt : (i : Int) < ↑n := by exact_mod_cast hi
  have hp : bufsize * i + bufsize ≤ e.length := by
    have := Nat.mul_le_mul_left bufsize hi
    rw [Nat.mul_succ] at this
    omega
  have hc : toInt ((i : Int) + 1) = ↑(i + 1) := by
    have : i ≤ bufsize * i := Nat.le_mul_of_pos_left i (by decide)
    exact toInt_of_lt (x := i + 1) (by omega)
  rw [copyStep, if_pos hlt, Nat.mul_succ]
  apply copy_runs _ _ _ _ _ hs hn hp
  simp [hc]

/-- Whole blocks first, then what is left before the checksum. -/
theorem copyWithoutChecksum_runs (hs : infile ≠ outfile) (hn : infilename ≠ outfilename)
    (h₂ : 2 ≤ e.length) (he : e.length < 2 ^ 28) :
    Runs faultless (copyWithoutChecksum infilename outfilename infile outfile e.length)
      (copied w infile outfile infilename outfilename e 0) (.returned ())
      (copied w infile outfile infilename outfilename e (e.length - 2)) := by
  let n := (e.length - 2) / bufsize
  have hm : bufsize * n + (e.length - 2) % bufsize = e.length - 2 := Nat.div_add_mod _ _
  have hstop : Runs faultless (copyStep infilename outfilename infile outfile ↑n ↑n)
      (copied w infile outfile infilename outfilename e (bufsize * n)) (.returned (.inr ()))
      (copied w infile outfile infilename outfilename e (bufsize * n)) := by
    simp [copyStep]
  have hsize := toSize_of_lt (x := (e.length - 2) % bufsize) (by omega)
  rw [copyWithoutChecksum]
  simp only [portionsCnt_eq h₂]
  rw [runs_bind]
  refine .next (.next (iterates_steps (fun i => (i : Int))
    (fun i => copied w infile outfile infilename outfilename e (bufsize * i)) n
    (fun i hi => copyStep_runs hs hn he hi (by omega)) (.stop hstop)) runs_done) ?_
  rw [yetToReadCnt_eq h₂ he, hsize]
  have hp : bufsize * n + (e.length - 2) % bufsize ≤ e.length := by omega
  have hlast := copy_runs (w := w) errIo errIo (ascii "Error reading from " ++ infilename)
    (ascii "Error writing to " ++ outfilename) (pure ()) hs hn hp runs_done
  rw [hm] at hlast
  simpa only [bind_pure_unit] using hlast

theorem lastIndex_suffix (F : Name) : lastIndex dot (F ++ crcSuffix) = some F.length :=
  lastIndex_append F (ascii "crc") (by decide)

theorem append_suffix_ne (F : Name) : F ++ crcSuffix ≠ F := by
  intro h
  have hl := congrArg List.length h
  rw [List.length_append] at hl
  exact absurd (Nat.add_left_cancel (hl.trans (Nat.add_zero _).symm)) (by decide)

/-- The files `validate` works on, once `p` bytes have been copied. -/
def validating (w : World) (F : Name) (e : Bytes) (p : Nat) : World :=
  copied { w with opened := w.opened + 2 } w.opened (w.opened + 1) (F ++ crcSuffix) F e p

/-- The file system after `validate` has accepted. -/
def afterValidate (w : World) (F : Name) (e : Bytes) : World :=
  let closed := ((validating w F e (e.length - 2)).setStream w.opened none).setStream
    (w.opened + 1) none
  closed.setFile (F ++ crcSuffix) none

theorem fseek_validating {F : Name} (hG : w.files (F ++ crcSuffix) = some e) :
    perform (((afterTest w (F ++ crcSuffix) e).setFile F (some [])).openStream F)
      (.fseek w.opened 0 .set) = (0, validating w F e 0) := by
  have hb : (((afterTest w (F ++ crcSuffix) e).setFile F (some [])).openStream F).behind w.opened =
      some (⟨F ++ crcSuffix, e.length⟩, e) := by
    apply behind_eq
    · simp [afterTest, World.openStream, World.setStream, World.setFile]
    · exact (Function.update_of_ne (append_suffix_ne F) _ _).trans hG
  have hfiles : Function.update w.files (F ++ crcSuffix) (some e) = w.files := by
    rw [← hG, Function.update_eq_self]
  have hne : w.opened + 1 ≠ w.opened := by omega
  simp only [perform, hb]
  simp only [validating, afterTest, copied, onFile, World.openStream, World.setStream,
    World.setFile, hfiles, List.take_zero, Function.update_comm hne, Function.update_idem]
  rfl

theorem validate_runs {F : Name} (hG : w.files (F ++ crcSuffix) = some e) (hF : w.files F = none)
    (hc : crc e = 0) (h₂ : 2 ≤ e.length) (he : e.length < 2 ^ 28) :
    Runs faultless (validate (F ++ crcSuffix)) w (.returned ()) (afterValidate w F e) := by
  have hs : w.opened ≠ w.opened + 1 := by omega
  have hn := append_suffix_ne F
  have hopen : perform (afterTest w (F ++ crcSuffix) e) (.fopen F .writeExclusive) =
      (.ok (w.opened + 1),
        ((afterTest w (F ++ crcSuffix) e).setFile F (some [])).openStream F) := by
    have hF' : (afterTest w (F ++ crcSuffix) e).files F = none := hF
    simp only [perform, hF']
    rfl
  have hin : (validating w F e (e.length - 2)).streams w.opened ≠ none := by
    simp [validating, copied, onFile, World.setStream, World.setFile]
  have hout : ((validating w F e (e.length - 2)).setStream w.opened none).streams (w.opened + 1) ≠
      none := by
    simp [validating, copied, onFile, World.setStream, World.setFile]
  have hunlink : (((validating w F e (e.length - 2)).setStream w.opened none).setStream
      (w.opened + 1) none).files (F ++ crcSuffix) ≠ none := by
    simp [validating, copied, onFile, World.setStream, World.setFile, hn]
  have hm : (F ++ crcSuffix).drop F.length = crcSuffix := List.drop_left
  have ht : (F ++ crcSuffix).take F.length = F := List.take_left
  rw [validate]
  rw [runs_bind]
  refine .next (remainderTest_runs hG he) ?_
  simp only [hc, decide_true, if_true, lastIndex_suffix, hm, ht, errIf_neg (not_not.mpr rfl),
    Program.done_bind]
  simp only [fopen, fseek, library, ask_bind, runs_handled_call, hopen, fseek_validating hG,
    errIf_zero, Program.done_bind]
  have hcopy : Runs faultless
      (copyWithoutChecksum (F ++ crcSuffix) F w.opened (w.opened + 1) e.length)
      (validating w F e 0) (.returned ()) (validating w F e (e.length - 2)) :=
    copyWithoutChecksum_runs hs hn h₂ he
  rw [runs_bind]
  refine .next hcopy ?_
  simp only [fclose, unlink, library, ask_bind]
  rw [runs_handled_answer (perform_fclose hin), errIf_zero, Program.done_bind,
    runs_handled_answer (perform_fclose hout), errIf_zero, Program.done_bind,
    runs_handled_answer (perform_unlink hunlink), errIf_zero]
  exact runs_done

theorem files_afterValidate (F : Name) : (afterValidate w F e).files =
    Function.update (Function.update w.files F (some (e.take (e.length - 2))))
      (F ++ crcSuffix) none := by
  have hn := append_suffix_ne F
  simp only [afterValidate, validating, copied, onFile, World.setStream, World.setFile,
    Function.update_comm hn, Function.update_idem]

/-- `calculate`, then `validate` on its result. -/
theorem files_roundTrip {F : Name} {d : Bytes} (hF : w.files F = some d)
    (hd : d.length + 2 < 2 ^ 28) :
    Yields faultless (do calculate F; validate (F ++ crcSuffix)) w
      (fun _ w' => w'.files F = some d ∧ w'.files (F ++ crcSuffix) = none ∧
        ∀ name, name ≠ F → name ≠ F ++ crcSuffix → w'.files name = w.files name) := by
  have hn := append_suffix_ne F
  have hl : (checksummed d).length = d.length + 2 := by simp [checksummed]
  have hG' : (afterCalculate w F d).files (F ++ crcSuffix) = some (checksummed d) :=
    files_afterCalculate
  have hF' : (afterCalculate w F d).files F = none := by
    simp [afterCalculate, onFile, World.setStream, World.setFile, hn.symm]
  have hother (name : Name) (hf : name ≠ F) (hg : name ≠ F ++ crcSuffix) :
      (afterCalculate w F d).files name = w.files name := by
    simp [afterCalculate, onFile, World.setStream, World.setFile, hf, hg]
  have hr := validate_runs hG' hF' (crc_checksummed d) (by omega) (by omega)
  have ht : (checksummed d).take ((checksummed d).length - 2) = d := by
    rw [hl, Nat.add_sub_cancel, checksummed, List.take_left]
  apply yields_of_runs ((runs_bind _ _ _ _ _).mpr (.next (calculate_runs hF hd) hr))
  rw [files_afterValidate, ht]
  refine ⟨?_, Function.update_self _ _ _, fun name hf hg => ?_⟩
  · rw [Function.update_of_ne hn.symm, Function.update_self]
  · rw [Function.update_of_ne hg, Function.update_of_ne hf, hother name hf hg]

theorem files_roundTrip_hello : Yields faultless
    (do calculate (ascii "a"); validate (ascii "a" ++ crcSuffix))
    (single (ascii "a") (ascii "hello")) (fun _ w' => w'.files (ascii "a") = some (ascii "hello") ∧
      w'.files (ascii "a" ++ crcSuffix) = none ∧
      ∀ name, name ≠ ascii "a" → name ≠ ascii "a" ++ crcSuffix →
        w'.files name = (single (ascii "a") (ascii "hello")).files name) :=
  files_roundTrip files_single (by decide)

end Ti3.Crc.RoundTrip
