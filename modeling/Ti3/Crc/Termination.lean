import Ti3.Library.Rounds
import Ti3.Crc.RoundTrip

namespace Ti3.Crc.Termination

open Library.CString Library.Interaction Library.Rules Library.Determinism Library.Rounds
open Tool FileSystem Remainder Checksum

/-- The environment answers every call. -/
def Answering {σ : Type} (env : Environment Call Answer σ) : Prop := ∀ w c, ∃ a w', env w c a w'

section

variable {σ : Type} {env : Environment Call Answer σ} {w : σ} {file : Nat} {bitsCnt : Int}

theorem nextBitFrom_guarantees {s : Statics} : Guarantees env (nextBitFrom s file) w
    (fun o _ => o = .cut ∨ ∃ r, o = .returned r) := by
  rw [nextBitFrom]
  split
  · simp [fgetc, library]
  · simp

theorem nextBitFrom_finishes (ha : Answering env) {s : Statics} :
    Finishes env (nextBitFrom s file) w := by
  rw [nextBitFrom]
  split
  · obtain ⟨a, w', h⟩ := ha w (.fgetc file)
    exact finishes_call h finishes_done
  · exact finishes_done

/-- One round of the division only reads. -/
theorem divisionStep_guarantees {d : Division} : Guarantees env (divisionStep file bitsCnt d) w
    (fun o _ => o = .cut ∨
      (d.i < bitsCnt ∧ ∃ d', o = .returned (.inl d') ∧ d'.i = toInt (d.i + 1)) ∨
      (¬ d.i < bitsCnt ∧ ∃ r, o = .returned (.inr r))) := by
  rw [divisionStep]
  split
  · next hlt =>
    refine guarantees_bind (guarantees_mono nextBitFrom_guarantees (fun o w' ho => ?_))
    obtain rfl | ⟨r, rfl⟩ := ho
    · exact .inl rfl
    · exact guarantees_done.mpr ⟨.inl rfl, .inr (.inl ⟨hlt, _, rfl, rfl⟩)⟩
  · next hge => exact guarantees_done.mpr ⟨.inl rfl, .inr (.inr ⟨hge, _, rfl⟩)⟩

theorem divisionStep_finishes (ha : Answering env) {d : Division} :
    Finishes env (divisionStep file bitsCnt d) w := by
  rw [divisionStep]
  split
  · exact finishes_bind (nextBitFrom_finishes ha) (fun _ _ _ => finishes_done)
  · exact finishes_done

/-- A bound that `int` can reach is reached. -/
theorem division_endsAfter (ha : Answering env) (s : Statics) {n : Nat} (hn : n < 2 ^ 31) :
    EndsAfter (fun d => Runs env (divisionStep file n d)) ⟨0, 0, s⟩ w n := by
  have hstep (d : Division) (w : σ) (o : Outcome Exit (Division ⊕ BitVec 16 × Statics)) (w' : σ)
      (hj : 0 ≤ d.i ∧ d.i ≤ n) (hr : Runs env (divisionStep file n d) w o w') :
      CountsDown (fun (d : Division) _ => 0 ≤ d.i ∧ d.i ≤ n) (fun d => (n - d.i).toNat) d o w' := by
    obtain rfl | ⟨hlt, d', rfl, hi⟩ | ⟨hge, r, rfl⟩ := divisionStep_guarantees o w' hr
    · exact .inl rfl
    · have hi : d'.i = d.i + 1 := by
        rw [hi, toInt]
        exact Int.bmod_eq_of_le (by omega) (by omega)
      have htogo : (n - d.i).toNat = (n - d'.i).toNat + 1 := by omega
      exact .inr (.inl ⟨d', rfl, ⟨by omega, by omega⟩, htogo⟩)
    · have htogo : (n - d.i).toNat = 0 := by omega
      exact .inr (.inr ⟨htogo, r, rfl⟩)
  have hstart : 0 ≤ (⟨0, 0, s⟩ : Division).i ∧ (⟨0, 0, s⟩ : Division).i ≤ n :=
    ⟨Int.le_refl 0, Int.natCast_nonneg n⟩
  have h := endsAfter_countdown hstep (fun d w _ => divisionStep_finishes ha) (w := w) hstart
  simpa using h

theorem division_finishes (ha : Answering env) {d : Division} (hb : bitsCnt < 2 ^ 31)
    (hd : 0 ≤ d.i ∧ d.i < 2 ^ 31) :
    Finishes env (.loop (divisionStep file bitsCnt) d .done) w := by
  refine finishes_loop (fun d => 0 ≤ d.i ∧ d.i < 2 ^ 31) (fun d => (bitsCnt - d.i).toNat) hd
    (fun d w hd => ⟨divisionStep_finishes ha, fun d' w' hr => ?_⟩) (fun _ _ => finishes_done)
  obtain h | ⟨hlt, d₁, h, hi⟩ | ⟨_, r, h⟩ := divisionStep_guarantees _ _ hr
  · cases h
  · cases h
    have hi : d'.i = d.i + 1 := by
      rw [hi, toInt]
      exact Int.bmod_eq_of_le (by omega) (by omega)
    exact ⟨by omega, by omega⟩
  · cases h

/-- A bound beyond `int` is not. -/
theorem division_endless {d : Division} (hb : 2 ^ 31 ≤ bitsCnt) (hd : d.i < 2 ^ 31) :
    Guarantees env (.loop (divisionStep file bitsCnt) d .done) w
      (fun (o : Outcome Exit (BitVec 16 × Statics)) _ => o = .cut) := by
  refine guarantees_loop (fun d _ => d.i < 2 ^ 31) hd (fun d w hd => ?_)
  refine guarantees_mono divisionStep_guarantees (fun o w' ho => ?_)
  obtain rfl | ⟨_, d', rfl, hi⟩ | ⟨hge, _⟩ := ho
  · rfl
  · have hlt : toInt (d.i + 1) < 2 ^ 31 := Int.bmod_lt (by decide)
    rw [← hi] at hlt
    exact hlt
  · exact absurd (lt_of_lt_of_le hd hb) hge

end

/-- The loop of `calc_crc_rem` takes every bit once, whatever it reads. -/
def DivisionEnds (filesize : Nat) : Prop :=
  ∀ (σ : Type) (env : Environment Call Answer σ), Answering env → ∀ file s w,
    EndsAfter (fun d => Runs env (divisionStep file (toLong (filesize * 8)) d)) ⟨0, 0, s⟩ w
      (filesize * 8)

theorem toLong_bits {filesize : Nat} (h : filesize * 8 < 2 ^ 63) :
    toLong (filesize * 8) = ↑(filesize * 8) := toLong_of_lt (x := filesize * 8) h

/-- An environment that answers everything without a state. -/
def anyAnswer : Environment Call Answer Unit := fun _ _ _ _ => True

theorem anyAnswer_answering : Answering anyAnswer := by
  intro w c
  have ha : Nonempty (Answer c) := by
    cases c <;> exact ⟨default⟩
  exact ⟨ha.some, (), trivial⟩

theorem not_divisionEnds {filesize : Nat} (h : filesize * 8 < 2 ^ 63) (hge : 2 ^ 28 ≤ filesize) :
    ¬ DivisionEnds filesize := by
  intro hends
  obtain ⟨c, w', hi⟩ := (hends Unit anyAnswer anyAnswer_answering 0 .start ()).left
  have hb : 2 ^ 31 ≤ toLong (filesize * 8) := by
    rw [toLong_bits h]
    omega
  have hd : (0 : Int) < 2 ^ 31 := by omega
  cases division_endless hb hd _ _ (runs_of_iterates hi)

theorem divisionEnds_iff {filesize : Nat} (h : filesize * 8 < 2 ^ 63) :
    DivisionEnds filesize ↔ filesize < 2 ^ 28 := by
  constructor
  · intro hends
    by_contra hge
    exact not_divisionEnds h (not_lt.mp hge) hends
  · intro hlt σ env ha file s w
    rw [toLong_bits h]
    exact division_endsAfter ha s (by omega)

variable {w : World} {name : Name} {d : Bytes}

theorem calcCrcRem_endless {s : Statics} {file pos : Nat} {n : Int}
    (hw : w.streams file = some ⟨name, pos⟩) (hf : w.files name = some d)
    (hn : 2 ^ 31 ≤ toLong (n * 8)) : ¬ Finishes faultless (calcCrcRem s file n) w := by
  have hseek : (perform w (.fseek file 0 .set)).1 = 0 := by
    simp [perform, behind_eq hw hf]
  have hi : (0 : Int) < 2 ^ 31 := by omega
  rw [calcCrcRem]
  simp only [fseek, library, ask_bind, finishes_handled_call, hseek, errIf_zero, Program.done_bind]
  exact not_finishes (division_endless hn hi)

theorem calculate_finishes_iff (hf : w.files name = some d) (h : (d.length + 2) * 8 < 2 ^ 63) :
    Finishes faultless (calculate name) w ↔ d.length + 2 < 2 ^ 28 := by
  constructor
  · intro hfin
    by_contra hge
    have hsize : ¬ ((↑(d.length + 2) : Int) = 0) := by omega
    rw [calculate] at hfin
    simp only [rename, fopen, fseek, fputc, ftell, library, ask_bind, finishes_handled_call,
      perform_rename hf, errIf_zero, Program.done_bind, fopen_renamed, fseek_fileEnd, fputc_zero,
      fputc_zeros, perform_ftell_onFile, errIf_neg hsize] at hfin
    have hn : 2 ^ 31 ≤ toLong ((d.length + 2 : Nat) * 8) := by
      rw [toLong_bits h]
      omega
    exact calcCrcRem_endless streams_onFile files_onFile hn (finishes_of_bind hfin)
  · intro hlt
    exact ⟨.returned (), _, (fun ho => by cases ho), calculate_runs hf hlt⟩

theorem finishes_errIf {α : Type} {failed : Prop} [Decidable failed] {code : Nat} {message : Bytes}
    {k : Process α} (hk : ¬ failed → Finishes faultless k w) :
    Finishes faultless (do errIf failed code message; k) w := by
  by_cases hf : failed
  · rw [errIf, if_pos hf]
    exact finishes_halt
  · rw [errIf, if_neg hf]
    exact hk hf

theorem finishes_last {failed : Prop} [Decidable failed] {code : Nat} {message : Bytes} :
    Finishes faultless (errIf failed code message) w := by
  rw [errIf]
  split
  · exact finishes_halt
  · exact finishes_done

theorem finishes_library {α : Type} {c : Call} {k : Answer c → Process α}
    (hk : Finishes faultless (k (perform w c).1) (perform w c).2) :
    Finishes faultless (do let a ← library c; k a) w := finishes_handled_call.mpr hk

theorem copyStep_finishes {infilename outfilename : Name} {infile outfile : Nat} {n i : Int} :
    Finishes faultless (copyStep infilename outfilename infile outfile n i) w := by
  rw [copyStep]
  split
  · exact finishes_library (finishes_errIf fun _ => finishes_library (finishes_errIf fun _ =>
      finishes_done))
  · exact finishes_done

theorem copyStep_guarantees {infilename outfilename : Name} {infile outfile : Nat} {n i : Int} :
    Guarantees faultless (copyStep infilename outfilename infile outfile n i) w (fun o _ =>
      ∀ i', o = .returned (.inl i') → i < n ∧ i' = toInt (i + 1)) := by
  have hcut : ∀ i', (.cut : Outcome Exit (Int ⊕ Unit)) = .returned (.inl i') →
      i < n ∧ i' = toInt (i + 1) := fun _ hi => by cases hi
  have hend (e : Exit) : ∀ i', (.halted e : Outcome Exit (Int ⊕ Unit)) = .returned (.inl i') →
      i < n ∧ i' = toInt (i + 1) := fun _ hi => by cases hi
  rw [copyStep]
  split
  · next hlt =>
    refine guarantees_call.mpr ⟨hcut, fun _ _ _ => guarantees_errIf ⟨hcut, hend⟩ fun _ => ?_⟩
    refine guarantees_call.mpr ⟨hcut, fun _ _ _ => guarantees_errIf ⟨hcut, hend⟩ fun _ => ?_⟩
    refine guarantees_done.mpr ⟨hcut, fun i' hi => ?_⟩
    cases hi
    exact ⟨hlt, rfl⟩
  · refine guarantees_done.mpr ⟨hcut, fun i' hi => ?_⟩
    cases hi

theorem copyWithoutChecksum_finishes {infilename outfilename : Name} {infile outfile filesize : Nat}
    (h : filesize < 2 ^ 28) :
    Finishes faultless (copyWithoutChecksum infilename outfilename infile outfile filesize) w := by
  let n : Int := ((filesize : Int) - checksumByteCnt).tdiv bufsize
  have hn : n < 2 ^ 28 := by
    have hle : n.natAbs ≤ ((filesize : Int) - checksumByteCnt).natAbs :=
      Int.natAbs_tdiv_le_natAbs _ _
    simp only [checksumByteCnt] at hle
    omega
  rw [copyWithoutChecksum]
  refine finishes_bind (finishes_loop (fun i : Int => 0 ≤ i ∧ i ≤ 2 ^ 28) (fun i => (n - i).toNat)
    ⟨Int.le_refl 0, by omega⟩ (fun i w hi => ⟨copyStep_finishes, fun i' w' hr => ?_⟩)
    (fun _ _ => finishes_done)) (fun _ _ _ => ?_)
  · obtain ⟨hlt, hi'⟩ := copyStep_guarantees _ _ hr i' rfl
    have hlt : i < n := hlt
    have hi' : i' = i + 1 := by
      rw [hi', toInt]
      exact Int.bmod_eq_of_le (by omega) (by omega)
    exact ⟨by omega, by omega⟩
  · exact finishes_library (finishes_errIf fun _ => finishes_library finishes_last)

theorem validate_endless (hf : w.files name = some d) (hd : 2 ^ 31 ≤ toLong (d.length * 8)) :
    ¬ Finishes faultless (validate name) w := by
  intro hfin
  have hstat : perform w (.stat name) = (some (d.length : Int), w) := by
    simp [perform, hf]
  have hopen : perform w (.fopen name .read) = (.ok w.opened, w.openStream name) := by
    simp [perform, hf]
  have hs : (w.openStream name).streams w.opened = some ⟨name, 0⟩ := streams_setStream _
  have htest := finishes_of_bind hfin
  rw [remainderTest] at htest
  simp only [stat, fopen, library, ask_bind, finishes_handled_call, hstat, hopen] at htest
  exact calcCrcRem_endless hs hf hd (finishes_of_bind htest)

theorem validate_finishes_iff (hf : w.files name = some d) (h : d.length * 8 < 2 ^ 63) :
    Finishes faultless (validate name) w ↔ d.length < 2 ^ 28 := by
  constructor
  · intro hfin
    by_contra hge
    have hd : 2 ^ 31 ≤ toLong (d.length * 8) := by
      rw [toLong_bits h]
      omega
    exact validate_endless hf hd hfin
  · intro hlt
    rw [validate]
    apply finishes_next (remainderTest_runs hf hlt)
    dsimp only
    split
    · split
      · exact finishes_halt
      · refine finishes_errIf (fun _ => finishes_library ?_)
        split
        · exact finishes_halt
        · exact finishes_halt
        · refine finishes_library (finishes_errIf fun _ => ?_)
          refine finishes_bind (copyWithoutChecksum_finishes hlt) (fun _ _ _ => ?_)
          exact finishes_library (finishes_errIf fun _ => finishes_library (finishes_errIf fun _ =>
            finishes_library finishes_last))
    · exact finishes_halt

/-- The loop ends after all bits, and `calculate` and `validate` come to their
end, for the sizes whose bits an `int` can count, and for no other. -/
theorem counted_iff {filesize : Nat} (h : filesize * 8 < 2 ^ 63) :
    (DivisionEnds filesize ↔ filesize < 2 ^ 28) ∧
    (∀ w name d, World.files w name = some d → d.length + 2 = filesize →
      (Finishes faultless (calculate name) w ↔ filesize < 2 ^ 28)) ∧
    ∀ w name d, World.files w name = some d → d.length = filesize →
      (Finishes faultless (validate name) w ↔ filesize < 2 ^ 28) := by
  refine ⟨divisionEnds_iff h, ?_, ?_⟩
  · rintro w name d hf rfl
    exact calculate_finishes_iff hf h
  · rintro w name d hf rfl
    exact validate_finishes_iff hf h

theorem counted_iff_hello : DivisionEnds 5 ∧
    Finishes faultless (validate (ascii "a")) (single (ascii "a") (ascii "hello")) := by
  obtain ⟨hends, _, hvalidate⟩ := @counted_iff 5 (by decide)
  exact ⟨hends.mpr (by decide), (hvalidate _ _ _ files_single rfl).mpr (by decide)⟩

/-- From 2 ^ 28 bytes on the counter starts again before it reaches the end. -/
theorem division_never_ends : ¬ DivisionEnds (2 ^ 28) ∧ ∀ d : Bytes, d.length + 2 = 2 ^ 28 →
    ¬ Finishes faultless (calculate (ascii "a")) (single (ascii "a") d) := by
  have h : 2 ^ 28 * 8 < 2 ^ 63 := by decide
  refine ⟨not_divisionEnds h (Nat.le_refl _), fun d hd hfin => ?_⟩
  have hlt := (calculate_finishes_iff files_single (hd ▸ h)).mp hfin
  omega

end Ti3.Crc.Termination
