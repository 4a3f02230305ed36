import Ti3.Crc.Calls
import Ti3.Crc.Interrupted
import Ti3.Crc.Termination

namespace Ti3.Crc.Frame

open Library.CString Library.Interaction Library.Rules Library.Determinism Library.Execution
open Library.Calls Library.Rounds Calls Tool Failures Interrupted Termination
open FileSystem (perform faultless guarantees_errIf errIf_zero)

/-- The files that a call names. -/
def names : Call → List Name
  | .rename old new => [old, new]
  | .stat name | .fopen name _ | .unlink name => [name]
  | .fseek _ _ _ | .ftell _ | .fgetc _ | .fputc _ _ | .fread _ _ | .fwrite _ _ | .fclose _ => []

variable {files : Name → Option Bytes} {S : Name → Prop} {w w' : World} {F : Name} {e : Bytes}

/-- Only some files are open, and no other has changed. -/
structure Within (files : Name → Option Bytes) (S : Name → Prop) (w : World) : Prop where
  opened : ∀ file s, w.streams file = some s → S s.name
  unchanged : ∀ name, ¬ S name → w.files name = files name

theorem Within.setFile (h : Within files S w) {name : Name} {d : Option Bytes} (hn : S name) :
    Within files S (w.setFile name d) := by
  refine ⟨h.opened, fun other ho => ?_⟩
  have hne : other ≠ name := by
    rintro rfl
    exact ho hn
  exact (Function.update_of_ne hne _ _).trans (h.unchanged other ho)

theorem Within.setStream (h : Within files S w) {file : Nat} {s : Option Stream}
    (hs : ∀ t, s = some t → S t.name) : Within files S (w.setStream file s) := by
  refine ⟨fun file' t ht => ?_, h.unchanged⟩
  by_cases he : file' = file
  · subst he
    exact hs t (setStream_same.symm.trans ht)
  · exact h.opened file' t ((setStream_other he).symm.trans ht)

theorem Within.move (h : Within files S w) {file pos : Nat} {name : Name} {pending : Bytes}
    (hn : S name) : Within files S (w.setStream file (some ⟨name, pos, pending⟩)) := by
  refine h.setStream (fun t ht => ?_)
  cases ht
  exact hn

theorem Within.settle (h : Within files S w) (hs : Settle w w') : Within files S w' := by
  obtain ⟨file, name, pos, b, rest, d, hf, _, rfl⟩ := settle_cases hs
  have hn : S name := h.opened _ _ hf
  exact (h.setFile hn).move hn

theorem Within.spoiled (h : Within files S w) {file : Nat} {s : Stream} {bytes : Bytes}
    (hs : w.streams file = some s) (hw : Spoiled w file s bytes w') : Within files S w' := by
  obtain ⟨k, rfl⟩ | rfl := hw
  · exact h.move (h.opened _ _ hs)
  · exact h.move (h.opened _ _ hs)

theorem Within.effect (h : Within files S w) {c : Call} {a : Answer c}
    (hc : ∀ name ∈ names c, S name) (ha : effect w c a w') : Within files S w' := by
  cases c with
  | rename old new =>
    obtain ⟨_, rfl⟩ | ⟨d, _, _, rfl⟩ := ha
    · exact h
    · exact (h.setFile (hc old (by simp [names]))).setFile (hc new (by simp [names]))
  | stat name => exact ha.1 ▸ h
  | fopen name mode =>
    have hn : S name := hc name (by simp [names])
    cases mode with
    | writeExclusive =>
      obtain ⟨rfl, _⟩ | ⟨file, _, _, _, rfl⟩ := ha
      · exact h
      · exact (h.setFile hn).move hn
    | read | readUpdate =>
      obtain ⟨rfl, _⟩ | ⟨file, _, _, _, rfl⟩ := ha
      · exact h
      · exact h.move hn
  | fseek file offset whence =>
    obtain ⟨_, rfl | ⟨s, hs, rfl⟩⟩ | ⟨s, d, pos, hs, _, _, _, _, rfl⟩ := ha
    · exact h
    · exact h.move (h.opened _ _ hs)
    · exact h.move (h.opened _ _ hs)
  | ftell file => exact ha.1 ▸ h
  | fgetc file =>
    obtain ⟨_, rfl⟩ | ⟨s, d, b, hs, _, _, _, _, rfl⟩ := ha
    · exact h
    · exact h.move (h.opened _ _ hs)
  | fputc c file =>
    cases hs : w.streams file with
    | none =>
      simp only [Failures.effect, hs] at ha
      exact ha.2 ▸ h
    | some s =>
      simp only [Failures.effect, hs] at ha
      obtain ⟨_, rfl⟩ | ⟨_, hw⟩ := ha
      · exact h.move (h.opened _ _ hs)
      · exact h.spoiled hs hw
  | fread count file =>
    obtain ⟨_, rfl⟩ | ⟨s, d, hs, _, _, _, rfl⟩ := ha
    · exact h
    · exact h.move (h.opened _ _ hs)
  | fwrite bytes file =>
    cases hs : w.streams file with
    | none =>
      simp only [Failures.effect, hs] at ha
      exact ha.2 ▸ h
    | some s =>
      simp only [Failures.effect, hs] at ha
      obtain ⟨_, rfl⟩ | ⟨_, hw⟩ := ha
      · exact h.move (h.opened _ _ hs)
      · exact h.spoiled hs hw
  | fclose file => exact ha.1 ▸ h.setStream (fun _ ht => by cases ht)
  | unlink name =>
    obtain ⟨_, rfl⟩ | ⟨_, _, rfl⟩ := ha
    · exact h
    · exact h.setFile (hc name (by simp [names]))

/-- A process that names only some files leaves the others alone. -/
theorem frame {α : Type} {p : Process α} (hp : OnlyCalls (fun c => ∀ name ∈ names c, S name) p) :
    Guarantees flaky p (World.start files)
      (fun _ w => ∀ name, ¬ S name → w.files name = files name) := by
  have hI (w : World) (c : Call) (a : Answer c) (w' : World) (hc : ∀ name ∈ names c, S name)
      (ha : flaky w c a w') (h : Within files S w) : Within files S w' := by
    obtain ⟨w₁, ha, hs⟩ := ha
    exact settled (fun _ _ hs h => Within.settle h hs) (h.effect hc ha) hs
  have h : Within files S (World.start files) := ⟨nofun, fun _ _ => rfl⟩
  exact guarantees_mono (onlyCalls_guarantees hI hp h) (fun _ _ h => h.unchanged)

theorem calculate_names : OnlyCalls
    (fun c => ∀ name ∈ names c, name = F ∨ name = F ++ crcSuffix) (calculate F) := by
  refine onlyCalls_check (by simp [names]) ⟨by simp [names], fun a => ?_⟩
  cases a with
  | error => trivial
  | ok file =>
  refine onlyCalls_check nofun ⟨nofun, fun _ => ⟨nofun, fun _ => ⟨nofun, fun size => ?_⟩⟩⟩
  refine onlyCalls_errIf (onlyCalls_bind (calcCrcRem_calls nofun nofun) (fun _ => ?_))
  exact onlyCalls_check nofun ⟨nofun, fun _ => ⟨nofun, fun _ => ⟨nofun, fun _ => onlyCalls_last⟩⟩⟩

/-- Whichever calls fail, no file but the argument is changed or removed. -/
def LeavesAlone (p : Process Unit) (F : Name) (files : Name → Option Bytes) : Prop :=
  Guarantees flaky p (World.start files) (fun _ w =>
    ∀ name, name ≠ F → files name ≠ none → w.files name = files name)

/-- When no call fails, the process comes to an error exit. -/
def ExitsWithError (p : Process Unit) (files : Name → Option Bytes) : Prop :=
  Finishes faultless p ⟨files, fun _ => none, 0⟩ ∧
    Guarantees faultless p ⟨files, fun _ => none, 0⟩ (fun o _ =>
      o = .cut ∨ ∃ code message, o = .halted (.status code message))

/-- Both directions respect the other files, and refuse when the name they have
to create is taken. -/
structure Framed (files : Name → Option Bytes) (F : Name) : Prop where
  calculate : LeavesAlone (calculate F) F files
  validate : LeavesAlone (validate F) F files
  calculateTaken : files (F ++ crcSuffix) ≠ none → ExitsWithError (Tool.calculate F) files
  validateTaken : ∀ G, F = G ++ crcSuffix → files G ≠ none →
    ExitsWithError (Tool.validate F) files

theorem validate_leavesAlone : LeavesAlone (validate F) F files := by
  cases hF : files F with
  | none =>
    rw [LeavesAlone, validate, remainderTest]
    simp only [bind_assoc]
    refine guarantees_library (fun _ _ _ _ h => h) (fun _ _ _ => rfl) (fun a w₁ ha w' hs => ?_)
    obtain ⟨rfl, rfl | ⟨d, hd, _⟩⟩ := ha
    · rw [still_settles (still_start files) hs]
      exact guarantees_halt.mpr ⟨fun _ _ _ => rfl, fun _ _ _ => rfl⟩
    · cases hF.symm.trans hd
  | some e =>
    refine guarantees_mono (validate_guarantees hF) (fun o w h name hne hn => ?_)
    obtain hsame | ⟨out, _, hfresh, ⟨u, _, hf⟩ | ⟨⟨u, hf, _⟩, _⟩⟩ := h
    · rw [hsame]
    · have hout : name ≠ out := by
        rintro rfl
        exact hn hfresh
      rw [hf, Function.update_of_ne hout]
    · have hout : name ≠ out := by
        rintro rfl
        exact hn hfresh
      rw [hf, Function.update_of_ne hne, Function.update_of_ne hout]

theorem calculate_leavesAlone (hG : files (F ++ crcSuffix) = none) :
    LeavesAlone (calculate F) F files := by
  refine guarantees_mono (frame calculate_names) (fun o w h name hne hn => h name ?_)
  rintro (rfl | rfl)
  · exact hne rfl
  · exact hn hG

theorem calculate_leavesAlone_none (hF : files F = none) : LeavesAlone (calculate F) F files := by
  rw [LeavesAlone, calculate]
  refine guarantees_library (fun _ _ _ _ h => h) (fun _ _ _ => rfl) (fun a w₁ ha w' hs => ?_)
  obtain ⟨rfl, rfl⟩ | ⟨d, hd, _⟩ := ha
  · rw [still_settles (still_start files) hs]
    exact guarantees_errIf ⟨fun _ _ _ => rfl, fun _ _ _ _ => rfl⟩ (fun h => absurd rfl h)
  · cases hF.symm.trans hd

/-- The renamed file takes the place of the one that was there, and grows. -/
theorem calculate_replaces {d : Bytes} (hF : files F = some d)
    (hG : files (F ++ crcSuffix) ≠ none) : ¬ LeavesAlone (calculate F) F files := by
  intro h
  have hne : F ++ crcSuffix ≠ F := RoundTrip.append_suffix_ne F
  let renamed := ((World.start files).setFile F none).setFile (F ++ crcSuffix) (some d)
  have hG' : renamed.files (F ++ crcSuffix) = some d := Function.update_self ..
  have hrename : flaky (World.start files) (.rename F (F ++ crcSuffix)) 0 renamed :=
    ⟨renamed, .inr ⟨d, hF, rfl, rfl⟩, .refl⟩
  have hcut : Runs flaky (calculate F) (World.start files) .cut renamed := by
    rw [calculate]
    exact runs_call hrename (runs_cut _ _)
  let opened := renamed.setStream 0 (some ⟨F ++ crcSuffix, 0, []⟩)
  let atEnd := opened.setStream 0 (some ⟨F ++ crcSuffix, d.length, []⟩)
  let grown := ((atEnd.put 0 ⟨F ++ crcSuffix, d.length, []⟩ [0]).setFile (F ++ crcSuffix)
    (some (FileSystem.overwrite d d.length [0]))).setStream 0
      (some ⟨F ++ crcSuffix, d.length + 1, []⟩)
  have hopen : flaky renamed (.fopen (F ++ crcSuffix) .readUpdate) (.ok 0) opened := by
    refine ⟨opened, .inr ⟨0, rfl, ?_, rfl, rfl⟩, .refl⟩
    rw [hG']
    exact Option.some_ne_none d
  have hseek : flaky opened (.fseek 0 0 .fileEnd) 0 atEnd :=
    ⟨atEnd, .inr ⟨⟨F ++ crcSuffix, 0, []⟩, d, d.length, setStream_same, rfl, hG', by simp [target],
      rfl, rfl⟩, .refl⟩
  have hbehind : atEnd.behind 0 = some (⟨F ++ crcSuffix, d.length, []⟩, d) :=
    behind_of setStream_same rfl hG'
  have hput : flaky atEnd (.fputc 0 0) (((0 : BitVec 32).setWidth 8).setWidth 32) grown :=
    flaky_fputc hbehind
  have hgrow : Runs flaky (calculate F) (World.start files) .cut grown := by
    rw [calculate]
    simp only [rename, fopen, fseek, fputc, library, ask_bind]
    apply runs_call hrename
    rw [errIf_zero, Program.done_bind]
    refine runs_call hopen (runs_call hseek ?_)
    rw [errIf_zero, Program.done_bind]
    exact runs_call hput (runs_cut _ _)
  have hsame := (h _ _ hcut _ hne hG).trans (h _ _ hgrow _ hne hG).symm
  have hgrown : grown.files (F ++ crcSuffix) = some (FileSystem.overwrite d d.length [0]) :=
    Function.update_self ..
  rw [hG', hgrown, FileSystem.overwrite_end] at hsame
  have hl := congrArg List.length (Option.some.inj hsame)
  rw [List.length_append, List.length_singleton] at hl
  omega

theorem exits_of_runs {p : Process Unit} {code : Nat} {message : Bytes} {w : FileSystem.World}
    (hr : Runs faultless p ⟨files, fun _ => none, 0⟩ (.halted (.status code message)) w) :
    ExitsWithError p files := by
  refine ⟨⟨.halted _, w, nofun, hr⟩, fun o w' ho => ?_⟩
  by_cases hc : o = .cut
  · exact .inl hc
  · exact .inr ⟨code, message, (runs_deterministic _ _ hr ho nofun hc).1.symm⟩

/-- A part that comes to its end in good order, followed by an error. -/
theorem exits_bind {α : Type} {p : Process α} {f : α → Process Unit}
    (hp : Finishes faultless p ⟨files, fun _ => none, 0⟩)
    (ho : Guarantees faultless p ⟨files, fun _ => none, 0⟩
      (fun o w => (∀ x, o = .halted x → Orderly x) ∧ w.files = files))
    (hf : ∀ a w, w.files = files → ∃ code message w',
      Runs faultless (f a) w (.halted (.status code message)) w') :
    ExitsWithError (p >>= f) files := by
  refine ⟨finishes_bind hp (fun a w hr => ?_), guarantees_bind (guarantees_mono ho ?_)⟩
  · obtain ⟨code, message, w', hr⟩ := hf a w (ho _ _ hr).2
    exact ⟨.halted _, w', nofun, hr⟩
  · rintro o w ⟨hx, hw⟩
    cases o with
    | cut => exact .inl rfl
    | halted x =>
      obtain ⟨code, message, rfl⟩ := hx x rfl
      exact .inr ⟨code, message, rfl⟩
    | returned a =>
      obtain ⟨code, message, w', hr⟩ := hf a w hw
      intro o w'' ho
      by_cases hc : o = .cut
      · exact .inl hc
      · exact .inr ⟨code, message, (runs_deterministic _ _ hr ho nofun hc).1.symm⟩

theorem calculate_exits (hF : files F = none) : ExitsWithError (calculate F) files := by
  have hrename : perform ⟨files, fun _ => none, 0⟩ (.rename F (F ++ crcSuffix)) =
      (-1, ⟨files, fun _ => none, 0⟩) := by
    simp [perform, hF]
  have hr : Runs faultless (calculate F) ⟨files, fun _ => none, 0⟩ (.halted (.status errFile
      (ascii "Cannot rename " ++ F ++ ascii " to " ++ (F ++ crcSuffix))))
        ⟨files, fun _ => none, 0⟩ := by
    rw [calculate]
    exact runs_call hrename runs_halt
  exact exits_of_runs hr

theorem validate_exits_none (hF : files F = none) : ExitsWithError (validate F) files := by
  have hstat : perform ⟨files, fun _ => none, 0⟩ (.stat F) =
      (none, ⟨files, fun _ => none, 0⟩) := by
    simp [perform, hF]
  have hr : Runs faultless (validate F) ⟨files, fun _ => none, 0⟩
      (.halted (.status errFile (ascii "Cannot execute stat on " ++ F)))
        ⟨files, fun _ => none, 0⟩ := by
    rw [validate, remainderTest]
    exact runs_call hstat runs_halt
  exact exits_of_runs hr

def Reads : Call → Prop
  | .stat _ | .fopen _ .read | .fseek _ _ _ | .fgetc _ => True
  | _ => False

theorem perform_reads {w : FileSystem.World} {c : Call} (hc : Reads c) :
    (perform w c).2.files = w.files := by
  cases c with
  | stat name => rfl
  | fopen name mode =>
    cases mode with
    | read =>
      simp only [perform]
      split
      · rfl
      · rfl
    | readUpdate | writeExclusive => exact absurd hc id
  | fseek file offset whence =>
    simp only [perform]
    split
    · rfl
    · cases whence with
      | set | fileEnd =>
        dsimp only
        split
        · rfl
        · rfl
  | fgetc file =>
    simp only [perform]
    split
    · rfl
    · split
      · rfl
      · rfl
  | _ => exact absurd hc id

theorem remainderTest_reads : OnlyCalls Reads (remainderTest F) := by
  refine ⟨trivial, fun size => ?_⟩
  cases size with
  | none => trivial
  | some size =>
    refine ⟨trivial, fun a => ?_⟩
    cases a with
    | error => trivial
    | ok file =>
      exact onlyCalls_bind (p := calcCrcRem .start file size) (calcCrcRem_calls trivial trivial)
        (fun _ => trivial)

theorem faultless_answering : Answering faultless := fun _ _ => ⟨_, _, rfl⟩

theorem remainderTest_finishes (hF : files F = some e) (he : toLong (e.length * 8) < 2 ^ 31) :
    Finishes faultless (remainderTest F) ⟨files, fun _ => none, 0⟩ := by
  have hstat : perform ⟨files, fun _ => none, 0⟩ (.stat F) =
      (some (e.length : Int), ⟨files, fun _ => none, 0⟩) := by
    simp [perform, hF]
  rw [remainderTest]
  simp only [stat, library, ask_bind, finishes_handled_call, hstat]
  apply finishes_library
  split
  · exact finishes_halt
  · refine finishes_bind (finishes_library (finishes_errIf fun _ => ?_))
      (fun _ _ _ => finishes_done)
    have hi : (0 : Int) ≤ 0 ∧ (0 : Int) < 2 ^ 31 := by omega
    exact division_finishes faultless_answering he hi

theorem validate_exits {G : Name} (hF : files (G ++ crcSuffix) = some e) (hG : files G ≠ none)
    (he : toLong (e.length * 8) < 2 ^ 31) : ExitsWithError (validate (G ++ crcSuffix)) files := by
  let w : FileSystem.World := ⟨files, fun _ => none, 0⟩
  have hfiles : Guarantees faultless (remainderTest (G ++ crcSuffix)) w
      (fun _ w' => w'.files = files) := by
    refine onlyCalls_guarantees (fun w c a w' hc ha h => ?_) remainderTest_reads rfl
    have hw := perform_reads hc (w := w)
    rw [ha] at hw
    exact hw.trans h
  have htest : Guarantees faultless (remainderTest (G ++ crcSuffix)) w
      (fun o w' => (∀ x, o = .halted x → Orderly x) ∧ w'.files = files) :=
    fun o w' hr => ⟨onlyHalts_guarantees remainderTest_orderly o w' hr, hfiles o w' hr⟩
  refine exits_bind (remainderTest_finishes hF he) htest (fun r w' hw => ?_)
  obtain ⟨file, size, verified⟩ := r
  cases verified with
  | false => exact ⟨_, _, _, runs_halt⟩
  | true =>
    obtain ⟨d, hd⟩ := Option.ne_none_iff_exists'.mp hG
    have hopen : perform w' (.fopen G .writeExclusive) = (.error .eexist, w') := by
      simp only [perform, hw, hd]
    have hm : (G ++ crcSuffix).drop G.length = crcSuffix := List.drop_left
    have ht : (G ++ crcSuffix).take G.length = G := List.take_left
    simp only [RoundTrip.lastIndex_suffix, hm, ht, if_true, FileSystem.errIf_neg (not_not.mpr rfl),
      Program.done_bind]
    exact ⟨_, _, _, runs_call hopen runs_halt⟩

/-- The exclusive open protects the output of `validate` as long as the loop
ends; the rename of `calculate` protects nothing. -/
theorem framed_iff : Framed files F ↔ ∀ e, files F = some e →
    files (F ++ crcSuffix) = none ∧
      ∀ G, F = G ++ crcSuffix → files G ≠ none → toLong (e.length * 8) < 2 ^ 31 := by
  constructor
  · intro h e hF
    refine ⟨?_, ?_⟩
    · by_contra hG
      exact calculate_replaces hF hG h.calculate
    · rintro G rfl hG
      by_contra hge
      exact validate_endless (w := ⟨files, fun _ => none, 0⟩) hF (not_lt.mp hge)
        (h.validateTaken G rfl hG).1
  · intro h
    cases hF : files F with
    | none =>
      exact ⟨calculate_leavesAlone_none hF, validate_leavesAlone, fun _ => calculate_exits hF,
        fun _ _ _ => validate_exits_none hF⟩
    | some e =>
      obtain ⟨hG, ht⟩ := h e hF
      refine ⟨calculate_leavesAlone hG, validate_leavesAlone, fun hn => absurd hG hn, ?_⟩
      rintro G rfl hn
      exact validate_exits hF hn (ht G rfl hn)

/-- A file "a" next to an older "a.crc". -/
def neighbours : Name → Option Bytes :=
  Function.update (only (ascii "a") [1]) (ascii "a.crc") (some [9])

/-- The older file is overwritten without a word. -/
theorem neighbour_replaced : ∃ w, Runs flaky (calculate (ascii "a")) (World.start neighbours)
    (.returned ()) w ∧ neighbours (ascii "a.crc") = some [9] ∧
      w.files (ascii "a.crc") ≠ some [9] := by
  obtain ⟨o, w, hr, rfl, hw⟩ := runs_of_execute (disk_flaky false) 30 (calculate (ascii "a"))
    (World.start neighbours) (fun o w => o = .returned () ∧ w.files (ascii "a.crc") ≠ some [9])
    (by decide +kernel)
  exact ⟨w, hr, rfl, hw⟩

end Ti3.Crc.Frame
