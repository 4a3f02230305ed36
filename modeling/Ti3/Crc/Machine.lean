import Ti3.Crc.Bounds
import Ti3.Library.Sessions

namespace Ti3.Crc.Machine

open Library.CString Library.Interaction Library.Determinism Library.Sessions
open Tool FileSystem Remainder Checksum RoundTrip Bounds

/-- The contents of the files by name. -/
abbrev Store := Name → Option Bytes

inductive Command where
  | calculate (name : Name)
  | validate (name : Name)
  deriving DecidableEq

def Command.argv (prog : Bytes) : Command → List Bytes
  | calculate name => [prog, ascii "calculate", name]
  | validate name => [prog, ascii "validate", name]

/-- The name in front of the suffix. -/
def original (name : Name) : Option Name :=
  (lastIndex dot name).bind
    (fun crcExt => if name.drop crcExt = crcSuffix then some (name.take crcExt) else none)

def payload (e : Bytes) : Bytes := e.take (e.length - 2)

/-- The last two bytes are the checksum of the others. -/
def Valid (e : Bytes) : Prop := e = checksummed (payload e)

instance (e : Bytes) : Decidable (Valid e) := inferInstanceAs (Decidable (_ = _))

/-- What a command makes of the files, if it can be done. -/
def apply (s : Store) : Command → Option Store
  | .calculate name => (s name).map (fun d =>
      Function.update (Function.update s name none) (name ++ crcSuffix) (some (checksummed d)))
  | .validate name => match s name, original name with
    | some e, some outfilename => if Valid e ∧ s outfilename = none then
        some (Function.update (Function.update s outfilename (some (payload e))) name none)
      else none
    | _, _ => none

/-- What is left behind by a command that cannot be done: an empty file if there is no room
for a checksum. -/
def leave (s : Store) : Command → Store
  | .calculate _ => s
  | .validate name => match s name, original name with
    | some e, some outfilename => if e.length < 2 ∧ crc e = 0 ∧ s outfilename = none then
        Function.update s outfilename (some [])
      else s
    | _, _ => s

/-- How a command ends that cannot be done. -/
def failure (s : Store) : Command → Exit
  | .calculate name =>
    .status errFile (ascii "Cannot rename " ++ name ++ ascii " to " ++ (name ++ crcSuffix))
  | .validate name => match s name with
    | none => .status errFile (ascii "Cannot execute stat on " ++ name)
    | some e =>
      if crc e ≠ 0 then .status wrongChecksum (ascii "Verification failed")
      else if dot ∉ name then .fault
      else match original name with
        | none => .status errArg (ascii "The file probably wasn't a crc-ed file!")
        | some outfilename =>
          if s outfilename ≠ none then
            .status errFile (outfilename ++ ascii " exists. Won't write to it.")
          else .status errIo (ascii "Error reading from " ++ name)

/-- A command is done, or ends with its error. -/
def Ends (s : Store) (c : Command) (o : Outcome Exit Unit) (s' : Store) : Prop :=
  match apply s c with
  | some t => o = .returned () ∧ s' = t
  | none => o = .halted (failure s c) ∧ s' = leave s c

/-- The streams are closed with the process. -/
def exit (w : World) : World := { w with streams := fun _ => none }

def tool (prog : Bytes) (c : Command) : Process Unit := main (c.argv prog)

section names

variable {name F : Name}

theorem original_append (F : Name) : original (F ++ crcSuffix) = some F := by
  rw [original, lastIndex_suffix, Option.bind_some, List.drop_left, if_pos rfl, List.take_left]

theorem original_eq (h : original name = some F) : name = F ++ crcSuffix := by
  obtain ⟨k, -, hk⟩ := Option.bind_eq_some_iff.mp h
  by_cases hd : name.drop k = crcSuffix
  · rw [if_pos hd] at hk
    rw [← Option.some.inj hk, ← hd, List.take_append_drop]
  · rw [if_neg hd] at hk
    cases hk

end names

section contents

variable {e d : Bytes}

theorem checksummed_length (d : Bytes) : (checksummed d).length = d.length + 2 := by
  simp [checksummed]

theorem payload_checksummed (d : Bytes) : payload (checksummed d) = d := by
  rw [payload, checksummed_length, Nat.add_sub_cancel, checksummed, List.take_left]

theorem valid_checksummed (d : Bytes) : Valid (checksummed d) := by
  rw [Valid, payload_checksummed]

/-- The test accepts the valid contents, and what is too short for a checksum. -/
theorem crc_valid (h₂ : 2 ≤ e.length) : crc e = 0 ↔ Valid e := by
  obtain ⟨a, b, hab⟩ : ∃ a b, e.drop (e.length - 2) = [a, b] :=
    List.length_eq_two.mp (by rw [List.length_drop]; omega)
  have hd : payload e ++ [a, b] = e := by
    rw [payload, ← hab, List.take_append_drop]
  have h := checksummed_iff (d := payload e) a b
  rwa [hd] at h

theorem valid_length (h : Valid e) : 2 ≤ e.length := by
  rw [h, checksummed_length]
  exact Nat.le_add_left 2 _

end contents

section commands

variable {w : World} {name F : Name} {d e : Bytes} {o : Outcome Exit Unit} {w' : World}

theorem calculate_fails (h : w.files name = none) :
    Runs faultless (calculate name) w (.halted (failure w.files (.calculate name))) w := by
  have hrename : perform w (.rename name (name ++ crcSuffix)) = (-1, w) := by
    simp only [perform, h]
  exact runs_call hrename runs_halt

theorem files_calculated (w : World) (name : Name) (d : Bytes) :
    (exit (afterCalculate w name d)).files = Function.update (Function.update w.files name none)
      (name ++ crcSuffix) (some (checksummed d)) := rfl

theorem validate_missing (h : w.files name = none) :
    Runs faultless (validate name) w (.halted (failure w.files (.validate name))) w := by
  have hstat : perform w (.stat name) = (none, w) := by
    simp only [perform, h, Option.map_none]
  have hfailure : failure w.files (.validate name) =
      .status errFile (ascii "Cannot execute stat on " ++ name) := by
    simp only [failure, h]
  rw [hfailure]
  exact runs_call hstat runs_halt

theorem validate_rejects (h : w.files name = some e) (he : e.length < 2 ^ 28) (hc : crc e ≠ 0) :
    Runs faultless (validate name) w (.halted (.status wrongChecksum (ascii "Verification failed")))
      (afterTest w name e) := by
  have htest := remainderTest_runs h he
  rw [decide_eq_false hc] at htest
  exact runs_next htest runs_halt

/-- What comes behind a test that has been passed. -/
theorem validate_passes (h : w.files name = some e) (he : e.length < 2 ^ 28) (hc : crc e = 0) :
    Runs faultless (remainderTest name) w (.returned (w.opened, (e.length : Int), true))
      (afterTest w name e) := by
  have htest := remainderTest_runs h he
  rwa [decide_eq_true hc] at htest

theorem validate_dotless (h : w.files name = some e) (he : e.length < 2 ^ 28) (hc : crc e = 0)
    (hd : dot ∉ name) : Runs faultless (validate name) w (.halted .fault) (afterTest w name e) := by
  apply runs_next (validate_passes h he hc)
  simp only [if_true, lastIndex_eq_none hd]
  exact runs_halt

theorem validate_unsuffixed (h : w.files name = some e) (he : e.length < 2 ^ 28)
    (hc : crc e = 0) (hd : dot ∈ name) (ho : original name = none) :
    Runs faultless (validate name) w
      (.halted (.status errArg (ascii "The file probably wasn't a crc-ed file!")))
        (afterTest w name e) := by
  obtain ⟨k, hk⟩ := Option.isSome_iff_exists.mp (lastIndex_isSome hd)
  have hdrop : name.drop k ≠ crcSuffix := by
    intro hdrop
    rw [original, hk, Option.bind_some, if_pos hdrop] at ho
    cases ho
  apply runs_next (validate_passes h he hc)
  simp only [if_true, hk, errIf, if_pos hdrop]
  exact runs_halt

/-- A name with the suffix is taken apart. -/
theorem validate_opens (h : w.files (F ++ crcSuffix) = some e) (he : e.length < 2 ^ 28)
    (hc : crc e = 0)
    (hr : Runs faultless (do
      match ← fopen F .writeExclusive with
      | .error .eexist => err errFile (F ++ ascii " exists. Won't write to it.")
      | .error .other => err errIo (ascii "Cannot write to from " ++ F)
      | .ok outfile =>
        errIf ((← fseek w.opened 0 .set) = -1) errIo
          (ascii "Cannot go back to the start of " ++ (F ++ crcSuffix))
        copyWithoutChecksum (F ++ crcSuffix) F w.opened outfile e.length
        errIf ((← fclose w.opened) = -1) errIo (ascii "Error closing " ++ (F ++ crcSuffix))
        errIf ((← fclose outfile) = -1) errIo (ascii "Error closing " ++ F)
        errIf ((← unlink (F ++ crcSuffix)) = -1) errFile
          (ascii "Cannot remove " ++ (F ++ crcSuffix))) (afterTest w (F ++ crcSuffix) e) o w') :
    Runs faultless (validate (F ++ crcSuffix)) w o w' := by
  have hm : (F ++ crcSuffix).drop F.length = crcSuffix := List.drop_left
  have ht : (F ++ crcSuffix).take F.length = F := List.take_left
  apply runs_next (validate_passes h he hc)
  simp only [if_true, lastIndex_suffix, hm, ht, errIf_neg (not_not.mpr rfl), Program.done_bind]
  exact hr

theorem validate_blocked (h : w.files (F ++ crcSuffix) = some e) (he : e.length < 2 ^ 28)
    (hc : crc e = 0) (hF : w.files F ≠ none) : Runs faultless (validate (F ++ crcSuffix)) w
      (.halted (.status errFile (F ++ ascii " exists. Won't write to it.")))
        (afterTest w (F ++ crcSuffix) e) := by
  obtain ⟨d, hd⟩ := Option.ne_none_iff_exists'.mp hF
  have hopen : perform (afterTest w (F ++ crcSuffix) e) (.fopen F .writeExclusive) =
      (.error .eexist, afterTest w (F ++ crcSuffix) e) := by
    have hF' : (afterTest w (F ++ crcSuffix) e).files F = some d := hd
    simp only [perform, hF']
  exact validate_opens h he hc (runs_call hopen runs_halt)

/-- No byte is copied of a file that is shorter than a checksum. -/
theorem copyWithoutChecksum_short {infile outfile : Nat} (hs : infile ≠ outfile)
    (hn : name ≠ F) (h₂ : e.length < 2) :
    ∃ w', w'.files = (copied w infile outfile name F e 0).files ∧
      Runs faultless (copyWithoutChecksum name F infile outfile e.length)
        (copied w infile outfile name F e 0)
        (.halted (.status errIo (ascii "Error reading from " ++ name))) w' := by
  have hcases : e.length = 0 ∨ e.length = 1 := by omega
  have hportions : ((e.length : Int) - checksumByteCnt).tdiv bufsize = 0 := by
    obtain h | h := hcases <;> rw [h] <;> decide
  have hcount : 2 ≤ toSize (toInt (e.length - 0 * bufsize - checksumByteCnt)) := by
    obtain h | h := hcases <;> rw [h] <;> decide
  generalize hc : toSize (toInt (e.length - 0 * bufsize - checksumByteCnt)) = count at hcount
  have hb : (copied w infile outfile name F e 0).behind infile = some (⟨name, 0⟩, e) := by
    apply behind_eq
    · simp [copied, onFile, World.setStream, hs, World.setFile]
    · simp [copied, onFile, World.setStream, hn, World.setFile]
  have hread : perform (copied w infile outfile name F e 0) (.fread count infile) =
      (e, (copied w infile outfile name F e 0).setStream infile (some ⟨name, e.length⟩)) := by
    have htake : e.take count = e := List.take_of_length_le (by omega)
    simp only [perform, hb, List.drop_zero, htake, Nat.zero_add]
  have hshort : e.length ≠ count := by omega
  refine ⟨(copied w infile outfile name F e 0).setStream infile (some ⟨name, e.length⟩), rfl, ?_⟩
  rw [copyWithoutChecksum]
  simp only [hportions, hc]
  have hstop : Runs faultless (copyStep name F infile outfile 0 0)
      (copied w infile outfile name F e 0) (.returned (.inr ()))
      (copied w infile outfile name F e 0) := by
    simp [copyStep]
  apply runs_next (loop_stop hstop runs_done)
  apply runs_call hread
  change Runs faultless (errIf (e.length ≠ count) errIo _ >>= fun _ => _) _ _ _
  rw [errIf, if_pos hshort]
  exact runs_halt

/-- A file without room for a checksum passes the test if it is zero, and an empty file is
created. -/
theorem validate_short (h : w.files (F ++ crcSuffix) = some e) (hc : crc e = 0)
    (hF : w.files F = none) (h₂ : e.length < 2) : ∃ w',
      w'.files = Function.update w.files F (some []) ∧
      Runs faultless (validate (F ++ crcSuffix)) w
        (.halted (.status errIo (ascii "Error reading from " ++ (F ++ crcSuffix)))) w' := by
  have hopen : perform (afterTest w (F ++ crcSuffix) e) (.fopen F .writeExclusive) =
      (.ok (w.opened + 1),
        ((afterTest w (F ++ crcSuffix) e).setFile F (some [])).openStream F) := by
    have hF' : (afterTest w (F ++ crcSuffix) e).files F = none := hF
    simp only [perform, hF']
    rfl
  obtain ⟨w', hfiles, hcopy⟩ := copyWithoutChecksum_short (w := { w with opened := w.opened + 2 })
    (Nat.ne_of_lt (Nat.lt_succ_self w.opened)) (append_suffix_ne F) h₂
  refine ⟨w', ?_, validate_opens h (by omega) hc ?_⟩
  · have hsame : Function.update w.files (F ++ crcSuffix) (some e) = w.files := by
      rw [← h, Function.update_eq_self]
    rw [hfiles]
    simp only [copied, onFile, World.setFile, World.setStream, List.take_zero, hsame]
  · apply runs_call hopen
    apply runs_call (fseek_validating h)
    change Runs faultless (errIf ((0 : Int) = -1) errIo _ >>= fun _ =>
      copyWithoutChecksum _ _ _ _ _ >>= fun _ => _) _ _ _
    rw [errIf_zero, Program.done_bind]
    exact (runs_bind _ _ _ _ _).mpr (.halted hcopy)

theorem main_calculate (prog : Bytes) : tool prog (.calculate name) = calculate name := rfl

theorem main_validate (prog : Bytes) : tool prog (.validate name) = validate name := by
  have hne : ascii "validate" ≠ ascii "calculate" := by decide
  simp only [tool, Command.argv, main, if_neg hne, if_true]

theorem calculate_ends (hsize : ∀ n d, w.files n = some d → d.length + 2 < 2 ^ 28) :
    ∃ o w', Runs faultless (calculate name) w o w' ∧ o ≠ .cut ∧
      Ends w.files (.calculate name) o w'.files := by
  cases hd : w.files name with
  | none =>
    refine ⟨_, w, calculate_fails hd, (fun h => by cases h), ?_⟩
    simp only [Ends, apply, hd, Option.map_none, leave, and_self]
  | some d =>
    refine ⟨_, _, calculate_runs hd (hsize name d hd), (fun h => by cases h), ?_⟩
    simp only [Ends, apply, hd, Option.map_some, true_and]
    exact files_calculated w name d

theorem validate_ends (hsize : ∀ n d, w.files n = some d → d.length + 2 < 2 ^ 28) :
    ∃ o w', Runs faultless (validate name) w o w' ∧ o ≠ .cut ∧
      Ends w.files (.validate name) o w'.files := by
  cases he : w.files name with
  | none =>
    refine ⟨_, w, validate_missing he, (fun h => by cases h), ?_⟩
    simp only [Ends, apply, he, leave, and_self]
  | some e =>
    have hlength : e.length < 2 ^ 28 := Nat.lt_of_add_right_lt (hsize name e he)
    by_cases hc : crc e = 0
    · cases ho : original name with
      | none =>
        by_cases hd : dot ∈ name
        · refine ⟨_, _, validate_unsuffixed he hlength hc hd ho, (fun h => by cases h), ?_⟩
          simp only [Ends, apply, failure, leave, he, ho, hc, hd, ne_eq, not_true_eq_false,
            if_false, true_and]
          rfl
        · refine ⟨_, _, validate_dotless he hlength hc hd, (fun h => by cases h), ?_⟩
          simp only [Ends, apply, failure, leave, he, ho, hc, hd, ne_eq, not_true_eq_false,
            if_false, not_false_eq_true, if_true, true_and]
          rfl
      | some F =>
        obtain rfl := original_eq ho
        have hd : dot ∈ F ++ crcSuffix := List.mem_append_right F (by decide)
        cases hF : w.files F with
        | some d =>
          refine ⟨_, _, validate_blocked he hlength hc (by simp [hF]), (fun h => by cases h), ?_⟩
          simp only [Ends, apply, failure, leave, he, ho, hc, hd, hF, ne_eq, not_true_eq_false,
            if_false, reduceCtorEq, and_false, not_false_eq_true, if_true, true_and]
          rfl
        | none =>
          by_cases h₂ : 2 ≤ e.length
          · refine ⟨_, _, validate_runs he hF hc h₂ hlength, (fun h => by cases h), ?_⟩
            have hvalid := (crc_valid h₂).mp hc
            simp only [Ends, apply, he, ho, hvalid, hF, true_and, if_true]
            exact files_afterValidate F
          · obtain ⟨w', hfiles, hr⟩ := validate_short he hc hF (Nat.lt_of_not_le h₂)
            refine ⟨_, w', hr, (fun h => by cases h), ?_⟩
            have hvalid : ¬ Valid e := fun h => h₂ (valid_length h)
            simp only [Ends, apply, failure, leave, he, ho, hc, hd, hF, hvalid, hfiles, ne_eq,
              not_true_eq_false, if_false, false_and, Nat.lt_of_not_le h₂, and_self, if_true]
    · refine ⟨_, _, validate_rejects he hlength hc, (fun h => by cases h), ?_⟩
      have hvalid : ¬ Valid e := by
        intro h
        exact hc ((crc_valid (valid_length h)).mpr h)
      cases ho : original name with
      | none | some F =>
        simp only [Ends, apply, failure, leave, he, ho, hc, hvalid, ne_eq, not_false_eq_true,
          if_true, false_and, and_false, if_false, true_and]
        rfl

theorem command_ends (prog : Bytes) (c : Command)
    (hsize : ∀ n d, w.files n = some d → d.length + 2 < 2 ^ 28) :
    ∃ o w', Runs faultless (tool prog c) w o w' ∧ o ≠ .cut ∧ Ends w.files c o w'.files := by
  cases c with
  | calculate name =>
    rw [main_calculate]
    exact calculate_ends hsize
  | validate name =>
    rw [main_validate]
    exact validate_ends hsize

end commands

/-- Every file has room for so many more bytes. -/
def Room (k : Nat) (s : Store) : Prop := ∀ n d, s n = some d → d.length + k < 2 ^ 28

section sessions

variable {s t : Store} {c : Command} {o : Outcome Exit Unit} {k : Nat} {name : Name}
variable {cs : List Command} {w : World}

theorem update_some {v : Option Bytes} {n : Name} {d : Bytes}
    (h : Function.update s name v n = some d) : n = name ∧ v = some d ∨ s n = some d := by
  by_cases hn : n = name
  · rw [hn, Function.update_self] at h
    exact .inl ⟨hn, h⟩
  · rw [Function.update_of_ne hn] at h
    exact .inr h

theorem room_update {v : Option Bytes} (h : Room k s)
    (hv : ∀ d, v = some d → d.length + k < 2 ^ 28) : Room k (Function.update s name v) := by
  intro n d hn
  obtain ⟨-, hd⟩ | hd := update_some hn
  · exact hv d hd
  · exact h n d hd

theorem apply_cases (h : apply s c = some t) :
    (∃ name d, c = .calculate name ∧ s name = some d ∧ t = Function.update
      (Function.update s name none) (name ++ crcSuffix) (some (checksummed d))) ∨
    (∃ F d, c = .validate (F ++ crcSuffix) ∧ s (F ++ crcSuffix) = some (checksummed d) ∧
      s F = none ∧ t = Function.update (Function.update s F (some d)) (F ++ crcSuffix) none) := by
  cases c with
  | calculate name =>
    obtain ⟨d, hd, rfl⟩ := Option.map_eq_some_iff.mp h
    exact .inl ⟨name, d, rfl, hd, rfl⟩
  | validate name =>
    cases he : s name with
    | none =>
      rw [apply, he] at h
      cases h
    | some e =>
      cases ho : original name with
      | none =>
        simp only [apply, he, ho] at h
        cases h
      | some F =>
        obtain rfl := original_eq ho
        simp only [apply, he, ho, Option.ite_none_right_eq_some, Option.some.injEq] at h
        obtain ⟨⟨hvalid, hF⟩, rfl⟩ := h
        exact .inr ⟨F, payload e, rfl, by rw [← hvalid, he], hF, rfl⟩

theorem leave_cases (s : Store) (c : Command) : leave s c = s ∨
    ∃ F e, c = .validate (F ++ crcSuffix) ∧ s (F ++ crcSuffix) = some e ∧ s F = none ∧
      leave s c = Function.update s F (some []) := by
  cases c with
  | calculate name => exact .inl rfl
  | validate name =>
    cases he : s name with
    | none => exact .inl (by rw [leave, he])
    | some e =>
      cases ho : original name with
      | none => exact .inl (by simp only [leave, he, ho])
      | some F =>
        obtain rfl := original_eq ho
        by_cases h : e.length < 2 ∧ crc e = 0 ∧ s F = none
        · exact .inr ⟨F, e, rfl, he, h.2.2, by simp only [leave, he, ho, if_pos h]⟩
        · exact .inl (by simp only [leave, he, ho, if_neg h])

/-- What a command can do: add a checksum, take one off, leave an empty file behind or change
nothing. -/
theorem ends_cases (h : Ends s c o t) :
    (∃ name d, c = .calculate name ∧ s name = some d ∧ t = Function.update
      (Function.update s name none) (name ++ crcSuffix) (some (checksummed d))) ∨
    (∃ F d, c = .validate (F ++ crcSuffix) ∧ s (F ++ crcSuffix) = some (checksummed d) ∧
      s F = none ∧ t = Function.update (Function.update s F (some d)) (F ++ crcSuffix) none) ∨
    (∃ F e, c = .validate (F ++ crcSuffix) ∧ s (F ++ crcSuffix) = some e ∧ s F = none ∧
      t = Function.update s F (some [])) ∨
    t = s := by
  rw [Ends] at h
  cases ha : apply s c with
  | some t' =>
    rw [ha] at h
    obtain ⟨-, rfl⟩ := h
    obtain hcalculate | hvalidate := apply_cases ha
    · exact .inl hcalculate
    · exact .inr (.inl hvalidate)
  | none =>
    rw [ha] at h
    obtain ⟨-, rfl⟩ := h
    obtain hsame | hempty := leave_cases s c
    · exact .inr (.inr (.inr hsame))
    · exact .inr (.inr (.inl hempty))

theorem room_less (h : Room (k + 2) s) : Room k s := by
  intro n d hn
  have := h n d hn
  omega

theorem room_ends (h : Room (k + 2) s) (hends : Ends s c o t) : Room k t := by
  have hnone : ∀ d : Bytes, (none : Option Bytes) = some d → d.length + k < 2 ^ 28 :=
    fun d hd => by cases hd
  obtain ⟨name, d, -, hd, rfl⟩ | ⟨F, d, -, hd, -, rfl⟩ | ⟨F, e, -, he, -, rfl⟩ | rfl :=
    ends_cases hends
  · have hroom := h name d hd
    apply room_update (room_update (room_less h) hnone)
    rintro _ ⟨⟩
    rw [checksummed_length]
    omega
  · have hroom := h _ _ hd
    rw [checksummed_length] at hroom
    apply room_update (room_update (room_less h) _) hnone
    rintro _ ⟨⟩
    omega
  · have hroom := h _ _ he
    apply room_update (room_less h)
    rintro _ ⟨⟩
    rw [List.length_nil]
    omega
  · exact room_less h

theorem tool_simulated (prog : Bytes) : Simulated perform (tool prog) exit World.files Ends
    (fun cs w => Room (2 * cs.length) w.files) := by
  intro c cs w h
  rw [List.length_cons, Nat.mul_succ] at h
  obtain ⟨o, w', hr, ho, hends⟩ := command_ends (w := w) prog c (fun n d hn => by
    have := h n d hn
    omega)
  exact ⟨o, w', hr, ho, hends, room_ends h hends⟩

/-- Every session of commands comes to its end, and is one of the machine. -/
theorem commands_refine (prog : Bytes) (h : Room (2 * cs.length) w.files) :
    (∃ os w', Session faultless (tool prog) exit w cs os w') ∧
    ∀ os w', Session faultless (tool prog) exit w cs os w' →
      Behaves Ends w.files cs os w'.files :=
  ⟨session_exists (tool_simulated prog) h, fun _ _ hr => session_behaves (tool_simulated prog) h hr⟩

theorem room_single {d : Bytes} (h : d.length + k < 2 ^ 28) : Room k (single name d).files := by
  apply room_update (fun n d hn => by cases hn)
  rintro _ ⟨⟩
  exact h

theorem commands_refine_hello :
    (∃ os w', Session faultless (tool (ascii "crc")) exit (single (ascii "a") (ascii "hello"))
      [.calculate (ascii "a"), .validate (ascii "a.crc")] os w') ∧
    ∀ os w', Session faultless (tool (ascii "crc")) exit (single (ascii "a") (ascii "hello"))
      [.calculate (ascii "a"), .validate (ascii "a.crc")] os w' →
        Behaves Ends (single (ascii "a") (ascii "hello")).files
          [.calculate (ascii "a"), .validate (ascii "a.crc")] os w'.files :=
  commands_refine (ascii "crc") (room_single (by decide))

end sessions

end Ti3.Crc.Machine
