import Ti3.Crc.Interrupted
import Ti3.Library.Execution

namespace Ti3.Crc.NoLoss

open Library.CString Library.Interaction Library.Rules Library.Determinism Library.Execution
open Tool Failures Interrupted
open FileSystem (overwrite guarantees_errIf)

variable {w w' : World} {files : Name → Option Bytes} {file : Nat} {F : Name} {D u t : Bytes}

/-- The content is still there as a whole, or in front of the file with the
checksum. -/
def Kept (F : Name) (D : Bytes) (w : World) : Prop :=
  w.files F = some D ∨ ∃ t, w.files (F ++ crcSuffix) = some (D ++ t)

theorem writing_kept (h : Writing files (F ++ crcSuffix) D u file w) : Kept F D w := by
  obtain ⟨k, _, hd, _⟩ := h.stored
  exact .inr ⟨_, by rw [hd, Function.update_self]⟩

/-- Writes go to the two bytes behind the content, of which `m` are there
already, and as many as `n` more can be written. -/
structure Behind (F : Name) (D : Bytes) (m n : Nat) (file : Nat) (w : World) : Prop where
  quiet : Quiet file w
  stored : ∃ t, m ≤ t.length ∧ t.length ≤ 2 ∧ w.files (F ++ crcSuffix) = some (D ++ t)
  place : ∃ pos pending, w.streams file = some ⟨F ++ crcSuffix, pos, pending⟩ ∧
    D.length + pending.length ≤ pos ∧ pos + n ≤ D.length + 2

theorem overwrite_behind {b : UInt8} {pos : Nat} (ht : t.length ≤ 2) (h₁ : D.length ≤ pos)
    (h₂ : pos + 1 ≤ D.length + 2) : ∃ t', t.length ≤ t'.length ∧ t'.length ≤ 2 ∧
      overwrite (D ++ t) pos [b] = D ++ t' := by
  obtain ⟨j, rfl⟩ := Nat.exists_eq_add_of_le h₁
  have hgap : D.length + j - (D ++ t).length = j - t.length := by
    rw [List.length_append]
    omega
  refine ⟨t.take j ++ List.replicate (j - t.length) 0 ++ [b] ++ t.drop (j + 1), ?_, ?_, ?_⟩
  · simp only [List.length_append, List.length_take, List.length_drop, List.length_singleton]
    omega
  · simp only [List.length_append, List.length_take, List.length_drop, List.length_singleton,
      List.length_replicate]
    omega
  · simp only [overwrite, hgap, List.length_singleton, List.take_length_add_append, Nat.add_assoc,
      List.drop_length_add_append, List.append_assoc]

variable {m n : Nat}

theorem Behind.settle (h : Behind F D m n file w) (hs : Settle w w') :
    Behind F D m n file w' := by
  obtain ⟨t, hm, ht, hd⟩ := h.stored
  obtain ⟨pos, pending, hf, hlo, hhi⟩ := h.place
  obtain ⟨b, rest, d, rfl, hd', rfl⟩ := quiet_cases h.quiet hs hf
  obtain rfl := Option.some.inj (hd.symm.trans hd')
  simp only [List.length_cons] at hlo
  have hlo' : D.length ≤ pos - (rest.length + 1) := by omega
  have hhi' : pos - (rest.length + 1) + 1 ≤ D.length + 2 := by omega
  obtain ⟨t', hle, ht', hover⟩ := overwrite_behind (b := b) ht hlo' hhi'
  refine ⟨quiet_setStream h.quiet, ⟨t', hm.trans hle, ht', ?_⟩, pos, rest, setStream_same,
    by omega, hhi⟩
  rw [← hover]
  exact Function.update_self ..

theorem Behind.spoiled (h : Behind F D m (n + 1) file w) {s : Stream} {b : UInt8}
    (hs : w.streams file = some s) (hw : Spoiled w file s [b] w') : Behind F D m n file w' := by
  obtain ⟨pos, pending, hf, hlo, hhi⟩ := h.place
  obtain rfl := Option.some.inj (hf.symm.trans hs)
  obtain ⟨k, rfl⟩ | rfl := hw
  · have hk := List.length_take_le' k [b]
    rw [List.length_singleton] at hk
    refine ⟨quiet_setStream h.quiet, h.stored, pos + ([b].take k).length, pending ++ [b].take k,
      setStream_same, ?_, by omega⟩
    rw [List.length_append]
    omega
  · exact ⟨quiet_setStream h.quiet, h.stored, pos, [], setStream_same,
      by rw [List.length_nil]; omega, by omega⟩

theorem Behind.kept (h : Behind F D m n file w) : Kept F D w := by
  obtain ⟨t, _, _, hd⟩ := h.stored
  exact .inr ⟨t, hd⟩

/-- `fputc` stands at the end of the file. -/
def AtEnd (w : World) (file : Nat) : Prop :=
  ∃ s d, w.streams file = some s ∧ w.files s.name = some d ∧ d.length ≤ s.pos

/-- Any call may fail, but for an `fputc` at the end of a file. -/
def appending : Environment Call Answer World := fun w c a w' => flaky w c a w' ∧
  match c, a with
  | .fputc _ file, a => AtEnd w file → a ≠ -1
  | _, _ => True

theorem appending_flaky (w : World) (c : Call) (a : Answer c) (w' : World)
    (h : appending w c a w') : flaky w c a w' := h.1

section

variable {α : Type} {P : Outcome Exit α → World → Prop}

/-- A byte is appended. -/
theorem append_guarantees (c : BitVec 32) {k : Process α}
    (h : Writing files (F ++ crcSuffix) D u file w)
    (hP : ∀ w, Kept F D w → P .cut w)
    (hk : ∀ w', Writing files (F ++ crcSuffix) D (u ++ [⟨c.setWidth 8⟩]) file w' →
      Guarantees appending k w' P) :
    Guarantees appending (do let _ ← fputc c file; k) w P := by
  refine guarantees_call.mpr ⟨hP w (writing_kept h), fun a w' ⟨⟨w₁, ha, hs⟩, hend⟩ => ?_⟩
  obtain ⟨j, hj, hd, hf⟩ := h.stored
  have hd : w.files (F ++ crcSuffix) = some (D ++ u.take j) := by
    rw [hd, Function.update_self]
  have hle : (D ++ u.take j).length ≤ D.length + u.length := by
    rw [List.length_append, List.length_take]
    omega
  simp only [effect, hf] at ha
  obtain ⟨_, rfl⟩ | ⟨rfl, _⟩ := ha
  · exact hk w' (settled (fun _ _ hs h => h.settle hs) (h.put _ hf) hs)
  · exact absurd rfl (hend ⟨_, _, hf, hd, hle⟩)

/-- A byte is written behind the content, or is not. -/
theorem behind_guarantees (c : BitVec 32) {k : Process α} (h : Behind F D m (n + 1) file w)
    (hP : ∀ w, Kept F D w → P .cut w)
    (hk : ∀ w', Behind F D m n file w' → Guarantees appending k w' P) :
    Guarantees appending (do let _ ← fputc c file; k) w P := by
  refine guarantees_library appending_flaky (hP w h.kept) (fun a w₁ ha w' hs => ?_)
  obtain ⟨pos, pending, hf, _⟩ := h.place
  have hwritten {w₁ : World}
      (hw : Spoiled w file ⟨F ++ crcSuffix, pos, pending⟩ [⟨c.setWidth 8⟩] w₁)
      (hs : Relation.ReflTransGen Settle w₁ w') : Behind F D m n file w' :=
    settled (fun _ _ hs h => h.settle hs) (h.spoiled hf hw) hs
  simp only [effect, hf] at ha
  obtain ⟨_, rfl⟩ | ⟨_, hw⟩ := ha
  · exact hk w' (hwritten (.inl ⟨1, rfl⟩) hs)
  · exact hk w' (hwritten hw hs)

end

/-- What `calculate` leaves behind, however it ends. -/
def Calculated (F : Name) (D : Bytes) (o : Outcome Exit Unit) (w : World) : Prop :=
  Kept F D w ∧ (o = .returned () → ∃ t, t.length = 2 ∧ w.files (F ++ crcSuffix) = some (D ++ t))

theorem calculated_early (h : Kept F D w) :
    Calculated F D .cut w ∧ ∀ e, Calculated F D (.halted e) w :=
  ⟨⟨h, fun ho => by cases ho⟩, fun _ => ⟨h, fun ho => by cases ho⟩⟩

theorem reading_kept (hG : files (F ++ crcSuffix) = some (D ++ t))
    (h : Reading files file (F ++ crcSuffix) w) : Kept F D w := .inr ⟨t, h.unchanged ▸ hG⟩

/-- The checksum is written behind the content. -/
theorem writeChecksum_guarantees (c c' : BitVec 32) {code : Nat} {message : Bytes}
    (h : Behind F D 2 2 file w) : Guarantees appending (do
      let _ ← fputc c file
      let _ ← fputc c' file
      errIf ((← fclose file) = -1) code message) w (Calculated F D) := by
  have hcut (w : World) (h : Kept F D w) := (calculated_early h).1
  refine behind_guarantees c h hcut (fun w h => ?_)
  refine behind_guarantees c' h hcut (fun w h => ?_)
  refine guarantees_library appending_flaky (hcut w h.kept) (fun a w₁ ha w' hs => ?_)
  obtain ⟨rfl, _⟩ := ha
  have hstill : Still (w.setStream file none) := still_close h.quiet
  obtain ⟨t, hm, ht, hd⟩ := h.stored
  have hdone : ∃ t, t.length = 2 ∧ (w.setStream file none).files (F ++ crcSuffix) = some (D ++ t) :=
    ⟨t, by omega, hd⟩
  rw [still_settles hstill hs, errIf]
  split
  · exact guarantees_halt.mpr ⟨hcut _ h.kept, (calculated_early h.kept).2 _⟩
  · exact guarantees_done.mpr ⟨hcut _ h.kept, h.kept, fun _ => hdone⟩

/-- The division reads what has been appended. -/
theorem calcCrcRem_guarantees {s : Statics} {size : Int}
    (h : Writing files (F ++ crcSuffix) D [0, 0] file w) {k : BitVec 16 × Statics → Process Unit}
    (hk : ∀ r w', w'.files (F ++ crcSuffix) = some (D ++ [0, 0]) →
      Reading w'.files file (F ++ crcSuffix) w' → Guarantees appending (k r) w' (Calculated F D)) :
    Guarantees appending (calcCrcRem s file size >>= k) w (Calculated F D) := by
  obtain ⟨j, hj, hd, hf⟩ := h.stored
  have hd : w.files (F ++ crcSuffix) = some (D ++ ([0, 0] : Bytes).take j) := by
    rw [hd, Function.update_self]
  have hlen : ([0, 0] : Bytes).length = 2 := rfl
  have hbehind : Behind F D 0 0 file w := by
    refine ⟨h.quiet, ⟨_, Nat.zero_le _, List.length_take_le' _ _, hd⟩, _, _, hf, ?_, ?_⟩
    · rw [List.length_drop]
      omega
    · omega
  have hforget : Behind F D 0 0 file (w.forget file
      ⟨F ++ crcSuffix, D.length + ([0, 0] : Bytes).length, ([0, 0] : Bytes).drop j⟩) :=
    ⟨quiet_setStream h.quiet, hbehind.stored, _, _, setStream_same, by simp, by simp⟩
  rw [calcCrcRem]
  simp only [bind_assoc]
  refine fseek_guarantees appending_flaky hf h.quiet (fun _ _ hs h => h.settle hs) hbehind hforget
    (fun w h => calculated_early h.kept)
    (fun hp d pos hd' _ => ?_)
  have hj₂ : 2 ≤ j := List.drop_eq_nil_iff.mp hp
  have hG : w.files (F ++ crcSuffix) = some (D ++ [0, 0]) := by
    rw [hd, List.take_of_length_le hj₂]
  have hread : Reading w.files file (F ++ crcSuffix)
      (w.setStream file (some ⟨F ++ crcSuffix, pos, []⟩)) :=
    ⟨rfl, ⟨pos, setStream_same⟩, quiet_setStream h.quiet⟩
  refine guarantees_bind (guarantees_mono
    (division_guarantees appending_flaky _ _ hread) (fun o w' h => ?_))
  have hG' : w'.files (F ++ crcSuffix) = some (D ++ [0, 0]) := h.unchanged ▸ hG
  cases o with
  | cut => exact (calculated_early (.inr ⟨_, hG'⟩)).1
  | halted x => exact (calculated_early (.inr ⟨_, hG'⟩)).2 x
  | returned r => exact hk r w' hG' ⟨rfl, h.place, h.quiet⟩

/-- The zeros are appended, the remainder is calculated, and the checksum takes
their place. -/
theorem append_calculated {code₁ code₂ code₃ code₄ : Nat}
    {message₁ message₂ message₃ message₄ : Bytes} (hG : files (F ++ crcSuffix) = some D)
    (h : Reading files file (F ++ crcSuffix) w) : Guarantees appending (do
      errIf ((← fseek file 0 .fileEnd) = -1) code₁ message₁
      let _ ← fputc 0 file
      let _ ← fputc 0 file
      let fileSize ← ftell file
      errIf (fileSize = 0) code₂ message₂
      let (crcRem, _) ← calcCrcRem .start file fileSize
      errIf ((← fseek file (-checksumByteCnt) .fileEnd) = -1) code₃ message₃
      let _ ← fputc ((crcRem.setWidth 32).sshiftRight 8) file
      let _ ← fputc (crcRem.setWidth 32 &&& 0x00ff) file
      errIf ((← fclose file) = -1) code₄ message₄) w (Calculated F D) := by
  have hend (w : World) (h : Kept F D w) := calculated_early h
  have hcut (w : World) (h : Kept F D w) := (hend w h).1
  have hG₀ : files (F ++ crcSuffix) = some (D ++ []) := by
    rw [hG, List.append_nil]
  have hstay {files : Name → Option Bytes} (w w' : World) (hs : Settle w w')
      (h : Reading files file (F ++ crcSuffix) w) : Reading files file (F ++ crcSuffix) w' :=
    absurd hs (not_settle h.still)
  obtain ⟨pos₀, hf⟩ := h.place
  refine fseek_guarantees appending_flaky hf h.quiet hstay h (h.move pos₀)
    (fun w h => hend w (reading_kept hG₀ h)) (fun _ d pos hd hpos => ?_)
  have hd' : files (F ++ crcSuffix) = some d := h.unchanged ▸ hd
  obtain rfl : D = d := Option.some.inj (hG.symm.trans hd')
  have hpos' : pos = D.length := by
    simp only [target, add_zero] at hpos
    exact_mod_cast hpos.symm
  have happend : Writing files (F ++ crcSuffix) D [] file
      (w.setStream file (some ⟨F ++ crcSuffix, pos, []⟩)) := by
    refine ⟨quiet_setStream h.quiet, 0, Nat.zero_le _, ?_, ?_⟩
    · rw [List.take_nil, setStream_files, h.unchanged, ← hG₀, Function.update_eq_self]
    · rw [hpos']
      exact setStream_same
  refine append_guarantees 0 happend hcut (fun w h => ?_)
  refine append_guarantees 0 h hcut (fun w h => ?_)
  refine guarantees_library appending_flaky (hcut w (writing_kept h)) (fun size w₁ ha w' hs => ?_)
  obtain ⟨rfl, _⟩ := ha
  have h' : Writing files (F ++ crcSuffix) D [0, 0] file w' :=
    settled (fun _ _ hs h => h.settle hs) h hs
  refine guarantees_errIf (hend w' (writing_kept h')) (fun _ => ?_)
  refine calcCrcRem_guarantees h' (fun r w hG hread => ?_)
  obtain ⟨pos₁, hf⟩ := hread.place
  refine fseek_guarantees appending_flaky hf hread.quiet hstay hread (hread.move pos₁)
    (fun w h => hend w (reading_kept hG h)) (fun _ d pos hd hpos => ?_)
  obtain rfl := Option.some.inj (hG.symm.trans hd)
  have hlen : (D ++ [0, 0]).length = D.length + 2 := List.length_append
  have hpos' : pos = D.length := by
    simp only [target, hlen, checksumByteCnt] at hpos
    omega
  exact writeChecksum_guarantees _ _ ⟨quiet_setStream hread.quiet,
    ⟨[0, 0], Nat.le_refl _, Nat.le_refl _, hG⟩, pos, [], setStream_same, by simp [hpos'],
    by simp [hpos']⟩

theorem calculate_guarantees (hF : files F = some D) :
    Guarantees appending (calculate F) (World.start files) (Calculated F D) := by
  have hend (w : World) (h : Kept F D w) := calculated_early h
  have hcut (w : World) (h : Kept F D w) := (hend w h).1
  rw [calculate]
  refine guarantees_library appending_flaky (hcut _ (.inl hF)) (fun a w₁ ha w hs => ?_)
  obtain ⟨rfl, rfl⟩ | ⟨d, hd, rfl, rfl⟩ := ha
  · rw [still_settles (still_start files) hs]
    exact guarantees_errIf (hend _ (.inl hF)) (fun h => absurd rfl h)
  · obtain rfl := Option.some.inj (hF.symm.trans hd)
    let renamed := ((World.start files).setFile F none).setFile (F ++ crcSuffix) (some D)
    have hG : renamed.files (F ++ crcSuffix) = some D := Function.update_self ..
    have hkept : Kept F D renamed := .inr ⟨[], by rw [hG, List.append_nil]⟩
    have hstill : Still renamed := still_start files
    rw [still_settles hstill hs]
    refine guarantees_library appending_flaky (hcut _ hkept) (fun a w₁ ha w hs => ?_)
    obtain ⟨rfl, e, rfl⟩ | ⟨file, hfile, _, rfl, rfl⟩ := ha
    · rw [still_settles hstill hs]
      exact guarantees_halt.mpr ⟨hcut _ hkept, (hend _ hkept).2 _⟩
    · have hread : Reading renamed.files file (F ++ crcSuffix)
          (renamed.setStream file (some ⟨F ++ crcSuffix, 0, []⟩)) :=
        ⟨rfl, ⟨0, setStream_same⟩, quiet_setStream (fun _ _ _ hs => by cases hs)⟩
      rw [still_settles hread.still hs]
      exact append_calculated hG hread

/-- What `validate` leaves behind of a file with a checksum. -/
theorem validated_kept {o : Outcome Exit Unit} (ht : t.length = 2)
    (hG : files (F ++ crcSuffix) = some (D ++ t)) (hD : D.length + 2 < 2 ^ 28)
    (h : Validated files (F ++ crcSuffix) (D ++ t) o w) : Kept F D w := by
  have hne := RoundTrip.append_suffix_ne F
  obtain hsame | ⟨out, hname, _, hleft | ⟨hcomplete, _⟩⟩ := h
  · exact .inr ⟨t, hsame ▸ hG⟩
  · obtain rfl := List.append_cancel_right hname
    obtain ⟨x, _, hf⟩ := hleft
    refine .inr ⟨t, ?_⟩
    rw [hf, Function.update_of_ne hne, hG]
  · obtain rfl := List.append_cancel_right hname
    obtain ⟨u, hf, hu⟩ := hcomplete
    have hl : (D ++ t).length = D.length + 2 := by rw [List.length_append, ht]
    have hu : u = D := by
      rw [hu (by omega) (by omega), hl, Nat.add_sub_cancel, List.take_left]
    refine .inl ?_
    rw [hf, Function.update_of_ne hne.symm, Function.update_self, hu]

/-- As long as the bytes that are appended do not fail, neither direction loses
the content, wherever a run ends. -/
theorem checksum_keeps (hF : files F = some D) (hD : D.length + 2 < 2 ^ 28) {o : Outcome Exit Unit}
    (hr : Runs appending (calculate F) (World.start files) o w) :
    Kept F D w ∧ ∀ o' w', o = .returned () →
      Runs flaky (validate (F ++ crcSuffix)) (World.start w.files) o' w' → Kept F D w' := by
  obtain ⟨hkept, hdone⟩ := calculate_guarantees hF o w hr
  refine ⟨hkept, fun o' w' ho hv => ?_⟩
  obtain ⟨t, ht, hG⟩ := hdone ho
  exact validated_kept ht hG hD (validate_guarantees hG o' w' hv)

theorem disk_appending (w : World) (c : Call) :
    appending w c (disk false w c).1 (disk false w c).2 := by
  refine ⟨disk_flaky false w c, ?_⟩
  cases c with
  | fputc c file =>
    rintro ⟨s, d, hs, hd, _⟩
    have hbyte : (c.setWidth 8).setWidth 32 ≠ (-1 : BitVec 32) := by
      intro h
      have h := congrArg BitVec.toNat h
      have := (c.setWidth 8).isLt
      simp at h
      omega
    cases hb : w.behind file with
    | none => simpa [disk, hs, hb] using hbyte
    | some b => simpa [disk, hs, hb] using hbyte
  | _ => trivial

theorem checksum_keeps_a : ∃ w, Runs appending (calculate (ascii "a"))
    (World.start (only (ascii "a") [1, 2, 3])) (.returned ()) w ∧ Kept (ascii "a") [1, 2, 3] w ∧
      ∀ o' w', Runs flaky (validate (ascii "a" ++ crcSuffix)) (World.start w.files) o' w' →
        Kept (ascii "a") [1, 2, 3] w' := by
  have hF : only (ascii "a") [1, 2, 3] (ascii "a") = some [1, 2, 3] := rfl
  have hD : ([1, 2, 3] : Bytes).length + 2 < 2 ^ 28 := by decide
  obtain ⟨o, w, hr, rfl⟩ := runs_of_execute disk_appending 50 (calculate (ascii "a"))
    (World.start (only (ascii "a") [1, 2, 3])) (fun o _ => o = .returned ()) (by decide +kernel)
  obtain ⟨hkept, hv⟩ := checksum_keeps hF hD hr
  exact ⟨w, hr, hkept, fun o' w' => hv o' w' rfl⟩

/-- On a full disk the checksum takes the place of the last two bytes. -/
theorem content_lost : ∃ w, Runs flaky (calculate (ascii "a"))
    (World.start (only (ascii "a") [1, 2, 3])) (.returned ()) w ∧
      ¬ Kept (ascii "a") [1, 2, 3] w := by
  obtain ⟨o, w, hr, rfl, hF, hG⟩ := runs_of_execute (disk_flaky true) 30 (calculate (ascii "a"))
    (World.start (only (ascii "a") [1, 2, 3])) (fun o w => o = .returned () ∧
      w.files (ascii "a") = none ∧ w.files (ascii "a" ++ crcSuffix) = some [1, 130, 6])
    (by decide +kernel)
  refine ⟨w, hr, ?_⟩
  rintro (h | ⟨t, h⟩)
  · rw [hF] at h
    cases h
  · rw [hG] at h
    cases h

end Ti3.Crc.NoLoss
