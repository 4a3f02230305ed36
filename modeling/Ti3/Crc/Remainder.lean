import Ti3.Crc.FileSystem
import Ti3.Library.CyclicCode

namespace Ti3.Crc.Remainder

open Library.CString Library.Interaction Library.Rules Library.Determinism
open Library.DivisionRegister Library.CyclicCode Tool FileSystem

theorem toInt_of_lt {x : Nat} (h : x < 2 ^ 31) : toInt x = x := by
  rw [toInt]
  exact Int.bmod_eq_of_le (by omega) (by omega)

theorem toLong_of_lt {x : Nat} (h : x < 2 ^ 63) : toLong x = x := by
  rw [toLong]
  exact Int.bmod_eq_of_le (by omega) (by omega)

/-- The bits of a file, the most significant bit of each byte first. -/
def fileBits (d : Bytes) : List Bool := d.flatMap (fun b => wordBits b.toBitVec)

/-- What the division register holds after a whole file. -/
def crc (d : Bytes) : BitVec 16 := divide poly (fileBits d)

theorem length_fileBits (d : Bytes) : (fileBits d).length = 8 * d.length := by
  induction d with
  | nil => rfl
  | cons b d ih =>
    simp only [fileBits, List.flatMap_cons, List.length_append, wordBits, List.length_map,
      List.length_range, List.length_cons] at ih ⊢
    omega

theorem getElem_fileBits (d : Bytes) (i : Nat) (hi : i < 8 * d.length) :
    (fileBits d)[i]? = some ((d.getD (i / 8) 0).toBitVec.getMsbD (i % 8)) := by
  induction d generalizing i with
  | nil => simp at hi
  | cons b d ih =>
    have hl : (wordBits b.toBitVec).length = 8 := by simp [wordBits]
    rw [fileBits, List.flatMap_cons]
    by_cases h : i < 8
    · rw [List.getElem?_append_left (by omega), Nat.div_eq_of_lt h, Nat.mod_eq_of_lt h]
      simp [wordBits, h]
    · rw [List.getElem?_append_right (by omega), hl]
      have hd : i / 8 = (i - 8) / 8 + 1 := by omega
      have hm : i % 8 = (i - 8) % 8 := by omega
      rw [hd, hm, List.getD_cons_succ]
      exact ih (i - 8) (by simp only [List.length_cons] at hi; omega)

/-- The bit that `next_bit_from` cuts out of a byte. -/
theorem shifted_bit (b : BitVec 8) (k : Nat) (hk : k < 8) :
    (b.setWidth 32).sshiftRight (7 - BitVec.ofNat 32 k).toNat &&& 1 =
      (BitVec.ofBool (b.getMsbD k)).setWidth 32 := by
  have hn : (7 - BitVec.ofNat 32 k).toNat = 7 - k := by bv_omega
  have hk' : 7 - k < 32 := by omega
  rw [hn, show (1 : BitVec 32) = 1#32 from rfl, BitVec.and_one_eq_setWidth_ofBool_getLsbD,
    BitVec.getLsbD_sshiftRight, BitVec.getMsbD_eq_getLsbD]
  simp [hk, hk']

theorem highest_bit (r : BitVec 16) : r &&& 0x8000 = 0x8000 ↔ r.msb = true := by
  have hm : ∀ i < 16, (0x8000 : BitVec 16).getLsbD i = decide (i = 15) := by decide
  refine ⟨fun h => ?_, fun h => ?_⟩
  · have h15 := congrArg (fun x : BitVec 16 => x.getLsbD 15) h
    simpa [BitVec.msb_eq_getLsbD_last] using h15
  · apply BitVec.eq_of_getLsbD_eq
    intro i hi
    rw [BitVec.getLsbD_and, hm i hi]
    by_cases he : i = 15
    · subst he
      simpa [BitVec.msb_eq_getLsbD_last] using h
    · simp [he]

variable {w : World} {file : Nat} {name : Name} {d : Bytes} {s : Statics}

/-- The statics of `next_bit_from` after `i` bits of a file. -/
def staticsAfter (s : Statics) (d : Bytes) : Nat → Statics
  | 0 => s
  | i + 1 => ⟨(d.getD (i / 8) 0).toBitVec.setWidth 32, BitVec.ofNat 32 (i % 8)⟩

/-- The file system once `i` bits of a file have been taken from its stream. -/
def worldAfter (w : World) (file : Nat) (name : Name) (i : Nat) : World :=
  w.setStream file (some ⟨name, (i + 7) / 8⟩)

def divisionAfter (s : Statics) (d : Bytes) (i : Nat) : Division :=
  ⟨i, divide poly ((fileBits d).take i), staticsAfter s d i⟩

theorem curOffs_staticsAfter (hs : s.curOffs = 7) (i : Nat) :
    (staticsAfter s d i).curOffs + 1 = if i % 8 = 0 then 8 else BitVec.ofNat 32 (i % 8) := by
  cases i with
  | zero => simp [staticsAfter, hs]
  | succ i =>
    simp only [staticsAfter]
    split <;> bv_omega

theorem curByte_staticsAfter {i : Nat} (h8 : i % 8 ≠ 0) :
    (staticsAfter s d i).curByte = (d.getD (i / 8) 0).toBitVec.setWidth 32 := by
  cases i with
  | zero => exact absurd rfl h8
  | succ i =>
    have hi : (i + 1) / 8 = i / 8 := by omega
    rw [hi]
    rfl

theorem fgetc_worldAfter (hf : w.files name = some d) {i : Nat} (hi : i < 8 * d.length)
    (h8 : i % 8 = 0) : perform (worldAfter w file name i) (.fgetc file) =
      ((d.getD (i / 8) 0).toBitVec.setWidth 32, worldAfter w file name (i + 1)) := by
  have hp : (i + 7) / 8 = i / 8 := by omega
  have hq : (i + 1 + 7) / 8 = i / 8 + 1 := by omega
  rw [worldAfter, worldAfter, hp, hq]
  exact perform_fgetc hf (by omega)

theorem nextBitFrom_runs (hs : s.curOffs = 7) (hf : w.files name = some d) {i : Nat}
    (hi : i < 8 * d.length) :
    Runs faultless (nextBitFrom (staticsAfter s d i) file) (worldAfter w file name i)
      (.returned ((BitVec.ofBool ((d.getD (i / 8) 0).toBitVec.getMsbD (i % 8))).setWidth 32,
        staticsAfter s d (i + 1))) (worldAfter w file name (i + 1)) := by
  have ho := curOffs_staticsAfter (d := d) hs i
  have hb := shifted_bit (d.getD (i / 8) 0).toBitVec (i % 8) (by omega)
  rw [nextBitFrom]
  by_cases h8 : i % 8 = 0
  · rw [h8] at hb
    simp only [ho, h8, if_true, fgetc, library, ask_bind, Program.pure_eq,
      Program.done_bind, runs_handled_call, fgetc_worldAfter hf hi h8, runs_handled_done, and_true]
    exact Prod.ext hb.symm (by simp [staticsAfter, h8])
  · have hne : BitVec.ofNat 32 (i % 8) ≠ 8 := by bv_omega
    have hw : (i + 7) / 8 = (i + 1 + 7) / 8 := by omega
    simp only [ho, h8, hne, if_false, Program.pure_eq, Program.done_bind, runs_handled_done,
      curByte_staticsAfter h8]
    exact ⟨Prod.ext hb.symm rfl, by simp only [worldAfter, hw]⟩

/-- The body of the division loop is one step of a division register. -/
theorem shift_poly (r : BitVec 16) (b : Bool) :
    (if r &&& 0x8000 = 0x8000 then
      ((r <<< 1) ||| ((BitVec.ofBool b).setWidth 32).setWidth 16) ^^^ poly
    else (r <<< 1) ||| ((BitVec.ofBool b).setWidth 32).setWidth 16) = shift poly r b := by
  have hb : ((BitVec.ofBool b).setWidth 32).setWidth 16 = (BitVec.ofBool b).setWidth 16 := by
    cases b <;> rfl
  rw [hb, shift]
  simp only [highest_bit]

theorem divReg_divisionAfter {i : Nat} (hi : i < 8 * d.length) :
    (divisionAfter s d (i + 1)).divReg =
      shift poly (divisionAfter s d i).divReg ((d.getD (i / 8) 0).toBitVec.getMsbD (i % 8)) := by
  have ht : (fileBits d).take (i + 1) = (fileBits d).take i ++
      [(d.getD (i / 8) 0).toBitVec.getMsbD (i % 8)] := by
    rw [List.take_add_one, getElem_fileBits d i hi, Option.toList_some]
  simp only [divisionAfter, ht, divide_append, List.foldl_cons, List.foldl_nil]

theorem divisionStep_runs (hs : s.curOffs = 7) (hf : w.files name = some d)
    (hd : 8 * d.length < 2 ^ 31) {i : Nat} (hi : i < 8 * d.length) :
    Runs faultless (divisionStep file ↑(8 * d.length) (divisionAfter s d i))
      (worldAfter w file name i) (.returned (.inl (divisionAfter s d (i + 1))))
      (worldAfter w file name (i + 1)) := by
  have hlt : (divisionAfter s d i).i < ↑(8 * d.length) := by
    simp only [divisionAfter]
    exact_mod_cast hi
  have hc : toInt ((divisionAfter s d i).i + 1) = (divisionAfter s d (i + 1)).i :=
    toInt_of_lt (x := i + 1) (by omega)
  rw [divisionStep, if_pos hlt, runs_bind]
  refine .next (nextBitFrom_runs hs hf hi) ?_
  simp only [Program.pure_eq, runs_handled_done, and_true]
  rw [shift_poly, ← divReg_divisionAfter hi, hc]
  rfl

theorem calcCrcRem_runs (hs : s.curOffs = 7) {pos : Nat} (hw : w.streams file = some ⟨name, pos⟩)
    (hf : w.files name = some d) (hd : 8 * d.length < 2 ^ 31) :
    Runs faultless (calcCrcRem s file d.length) w
      (.returned (crc d, staticsAfter s d (8 * d.length)))
      (w.setStream file (some ⟨name, d.length⟩)) := by
  have hc : toLong (↑d.length * 8) = ↑(8 * d.length) := by
    rw [show (d.length : Int) * 8 = ↑(8 * d.length) by push_cast; ring]
    exact toLong_of_lt (by omega)
  have hseek : perform w (.fseek file 0 .set) = (0, worldAfter w file name 0) := by
    simp [perform, behind_eq hw hf, worldAfter]
  have hend : (8 * d.length + 7) / 8 = d.length := by omega
  have hstop : Runs faultless (divisionStep file ↑(8 * d.length) (divisionAfter s d (8 * d.length)))
      (worldAfter w file name (8 * d.length))
      (.returned (.inr (crc d, staticsAfter s d (8 * d.length))))
      (w.setStream file (some ⟨name, d.length⟩)) := by
    have ht : (fileBits d).take (8 * d.length) = fileBits d :=
      List.take_of_length_le (length_fileBits d).le
    simp [divisionStep, divisionAfter, ht, crc, worldAfter, hend]
  rw [calcCrcRem]
  simp only [fseek, library, ask_bind, runs_handled_call, hseek, hc, errIf]
  refine .next (iterates_steps (divisionAfter s d) (worldAfter w file name) (8 * d.length)
    (fun i hi => divisionStep_runs hs hf hd hi) (.stop hstop)) runs_done

theorem curOffs_of_whole (hs : s.curOffs = 7) : (staticsAfter s d (8 * d.length)).curOffs = 7 := by
  have ho := curOffs_staticsAfter (d := d) hs (8 * d.length)
  rw [Nat.mul_mod_right, if_pos rfl] at ho
  bv_omega

/-- The statics that calls of `calc_crc_rem` on whole files can leave behind. -/
inductive Reached : Statics → Prop
  | start : Reached .start
  | call {s s' : Statics} {w w' : World} {file pos : Nat} {name : Name} {d : Bytes}
      {r : BitVec 16} : Reached s → w.streams file = some ⟨name, pos⟩ → w.files name = some d →
      8 * d.length < 2 ^ 31 →
      Runs faultless (calcCrcRem s file d.length) w (.returned (r, s')) w' → Reached s'

theorem reached_curOffs (hs : Reached s) : s.curOffs = 7 := by
  induction hs with
  | start => rfl
  | call _ hw hf hd hr ih =>
    obtain ⟨he, _⟩ := runs_deterministic _ _ (calcCrcRem_runs ih hw hf hd) hr (by simp) (by simp)
    simp only [Outcome.returned.injEq, Prod.mk.injEq] at he
    exact he.2 ▸ curOffs_of_whole ih

open Polynomial in
theorem generator_poly : generator poly = X ^ 16 + X ^ 15 + X ^ 2 + 1 := by
  have hp : toPoly poly = X ^ 15 + X ^ 2 + 1 := by
    have hb : ∀ i < 16, poly.getLsbD i = decide (i = 0 ∨ i = 2 ∨ i = 15) := by decide
    rw [toPoly]
    rw [Finset.sum_congr rfl (fun i hi => by rw [hb i (Finset.mem_range.mp hi)])]
    simp [Finset.sum_range_succ]
    ring
  rw [generator, hp]
  ring

open Polynomial in
/-- Whatever was read before, the result is the remainder of the file. -/
theorem calcCrcRem_remainder (hs : Reached s) {pos : Nat} (hw : w.streams file = some ⟨name, pos⟩)
    (hf : w.files name = some d) (hd : 8 * d.length < 2 ^ 31) :
    Yields faultless (calcCrcRem s file d.length) w (fun r _ =>
      toPoly r.1 = ofBits (fileBits d) %ₘ (X ^ 16 + X ^ 15 + X ^ 2 + 1)) := by
  apply yields_of_runs (calcCrcRem_runs (reached_curOffs hs) hw hf hd)
  rw [← generator_poly]
  exact toPoly_divide (by omega) poly (fileBits d)

open Polynomial in
theorem calcCrcRem_second : Yields faultless
    (calcCrcRem (staticsAfter .start (ascii "abc") 24) 0 (ascii "abc").length)
    (onFile ⟨fun _ => none, fun _ => none, 1⟩ 0 (ascii "file") (ascii "abc") 3) (fun r _ =>
      toPoly r.1 = ofBits (fileBits (ascii "abc")) %ₘ (X ^ 16 + X ^ 15 + X ^ 2 + 1)) := by
  have hs : (onFile ⟨fun _ => none, fun _ => none, 1⟩ 0 (ascii "file") (ascii "abc") 3).streams 0 =
      some ⟨ascii "file", 3⟩ := streams_onFile
  have hr := calcCrcRem_runs (s := .start) rfl hs files_onFile (by decide)
  exact calcCrcRem_remainder (.call .start hs files_onFile (by decide) hr) hs files_onFile
    (by decide)

end Ti3.Crc.Remainder
