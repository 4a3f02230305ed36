import Mathlib.Logic.Relation
import Ti3.Crc.FileSystem

namespace Ti3.Crc.Failures

open Library.CString Library.Interaction Library.Rules Tool
open FileSystem (overwrite overwrite_end guarantees_errIf)

/-- An open stream. Bytes that have been written to it and have not come to the
file yet are pending; they end at its position. -/
structure Stream where
  name : Name
  pos : Nat
  pending : Bytes

structure World where
  files : Name → Option Bytes
  streams : Nat → Option Stream

namespace World

/-- A process starts without open streams. -/
def start (files : Name → Option Bytes) : World := ⟨files, fun _ => none⟩

def setFile (w : World) (name : Name) (d : Option Bytes) : World :=
  { w with files := Function.update w.files name d }

def setStream (w : World) (file : Nat) (s : Option Stream) : World :=
  { w with streams := Function.update w.streams file s }

def put (w : World) (file : Nat) (s : Stream) (bytes : Bytes) : World :=
  w.setStream file (some ⟨s.name, s.pos + bytes.length, s.pending ++ bytes⟩)

def forget (w : World) (file : Nat) (s : Stream) : World :=
  w.setStream file (some ⟨s.name, s.pos, []⟩)

end World

/-- The first pending byte of a stream comes to its file. -/
inductive Settle : World → World → Prop
  | byte {w : World} {file : Nat} {name : Name} {pos : Nat} {b : UInt8} {rest d : Bytes} :
      w.streams file = some ⟨name, pos, b :: rest⟩ → w.files name = some d →
      Settle w ((w.setFile name (some (overwrite d (pos - (rest.length + 1)) [b]))).setStream file
        (some ⟨name, pos, rest⟩))

/-- A write that fails stores a part of the bytes, or loses those that were
pending. -/
def Spoiled (w : World) (file : Nat) (s : Stream) (bytes : Bytes) (w' : World) : Prop :=
  (∃ k, w' = w.put file s (bytes.take k)) ∨ w' = w.forget file s

def target (length : Nat) (offset : Int) : Whence → Int
  | .set => offset
  | .fileEnd => length + offset

/-- The library when any call may fail. `fseek` and `fclose` succeed only when
nothing is pending. -/
def effect (w : World) : (c : Call) → Answer c → World → Prop
  | .rename old new, a, w' => (a = -1 ∧ w' = w) ∨
      ∃ d, w.files old = some d ∧ a = 0 ∧ w' = (w.setFile old none).setFile new (some d)
  | .stat name, a, w' => w' = w ∧
      (a = none ∨ ∃ d, w.files name = some d ∧ a = some (d.length : Int))
  | .fopen name .writeExclusive, a, w' => (w' = w ∧ ∃ e, a = .error e) ∨
      ∃ file, w.streams file = none ∧ w.files name = none ∧ a = .ok file ∧
        w' = (w.setFile name (some [])).setStream file (some ⟨name, 0, []⟩)
  | .fopen name .read, a, w' | .fopen name .readUpdate, a, w' => (w' = w ∧ ∃ e, a = .error e) ∨
      ∃ file, w.streams file = none ∧ w.files name ≠ none ∧ a = .ok file ∧
        w' = w.setStream file (some ⟨name, 0, []⟩)
  | .fseek file offset whence, a, w' =>
      (a = -1 ∧ (w' = w ∨ ∃ s, w.streams file = some s ∧ w' = w.forget file s)) ∨
      ∃ s d, ∃ pos : Nat, w.streams file = some s ∧ s.pending = [] ∧ w.files s.name = some d ∧
        target d.length offset whence = pos ∧ a = 0 ∧
        w' = w.setStream file (some ⟨s.name, pos, []⟩)
  | .ftell file, a, w' => w' = w ∧ (a = -1 ∨ ∃ s, w.streams file = some s ∧ a = (s.pos : Int))
  | .fgetc file, a, w' => (a = -1 ∧ w' = w) ∨
      ∃ s d b, w.streams file = some s ∧ s.pending = [] ∧ w.files s.name = some d ∧
        d[s.pos]? = some b ∧ a = b.toBitVec.setWidth 32 ∧
        w' = w.setStream file (some ⟨s.name, s.pos + 1, []⟩)
  | .fputc c file, a, w' => match w.streams file with
      | none => a = -1 ∧ w' = w
      | some s => (a = (c.setWidth 8).setWidth 32 ∧ w' = w.put file s [⟨c.setWidth 8⟩]) ∨
          (a = -1 ∧ Spoiled w file s [⟨c.setWidth 8⟩] w')
  | .fread count file, a, w' => (a = [] ∧ w' = w) ∨
      ∃ s d, w.streams file = some s ∧ s.pending = [] ∧ w.files s.name = some d ∧
        a <+: (d.drop s.pos).take count ∧
        w' = w.setStream file (some ⟨s.name, s.pos + a.length, []⟩)
  | .fwrite bytes file, a, w' => match w.streams file with
      | none => a = 0 ∧ w' = w
      | some s => (a = bytes.length ∧ w' = w.put file s bytes) ∨
          (a < bytes.length ∧ Spoiled w file s bytes w')
  | .fclose file, a, w' => w' = w.setStream file none ∧
      (a = -1 ∨ (a = 0 ∧ ∀ s, w.streams file = some s → s.pending = []))
  | .unlink name, a, w' => (a = -1 ∧ w' = w) ∨
      (a = 0 ∧ w.files name ≠ none ∧ w' = w.setFile name none)

/-- Before the next call, and when the process ends, any part of the pending
bytes may have come to the files. -/
def flaky : Environment Call Answer World :=
  fun w c a w' => ∃ w₁, effect w c a w₁ ∧ Relation.ReflTransGen Settle w₁ w'

variable {w w' : World} {file : Nat} {name : Name} {d : Bytes}

@[simp] theorem setStream_same {s : Option Stream} : (w.setStream file s).streams file = s :=
  Function.update_self ..

theorem setStream_other {file' : Nat} {s : Option Stream} (h : file' ≠ file) :
    (w.setStream file s).streams file' = w.streams file' := Function.update_of_ne h ..

@[simp] theorem setStream_files {s : Option Stream} : (w.setStream file s).files = w.files := rfl

@[simp] theorem setFile_streams {o : Option Bytes} : (w.setFile name o).streams = w.streams := rfl

theorem settle_cases (h : Settle w w') : ∃ file name pos b rest d,
    w.streams file = some ⟨name, pos, b :: rest⟩ ∧ w.files name = some d ∧
      w' = (w.setFile name (some (overwrite d (pos - (rest.length + 1)) [b]))).setStream file
        (some ⟨name, pos, rest⟩) := by
  cases h with
  | byte hs hd => exact ⟨_, _, _, _, _, _, hs, hd, rfl⟩

/-- What settling keeps holds whenever the next call is made. -/
theorem settled {I : World → Prop} (hI : ∀ w w', Settle w w' → I w → I w') (h : I w)
    (hs : Relation.ReflTransGen Settle w w') : I w' := by
  induction hs with
  | refl => exact h
  | tail _ hw ih => exact hI _ _ hw ih

/-- Nothing is pending, but for one stream. -/
def Quiet (file : Nat) (w : World) : Prop :=
  ∀ file' s, file' ≠ file → w.streams file' = some s → s.pending = []

/-- Nothing is pending. -/
def Still (w : World) : Prop := ∀ file s, w.streams file = some s → s.pending = []

theorem still_start (files : Name → Option Bytes) : Still (World.start files) :=
  fun _ _ hs => by cases hs

theorem not_settle (h : Still w) : ¬ Settle w w' := by
  intro hs
  obtain ⟨file, name, pos, b, rest, d, hf, _⟩ := settle_cases hs
  exact absurd (h _ _ hf) (List.cons_ne_nil _ _)

theorem still_settles (h : Still w) (hs : Relation.ReflTransGen Settle w w') : w' = w := by
  refine settled (I := fun w' => w' = w) ?_ rfl hs
  rintro w₁ w₂ hw rfl
  exact absurd hw (not_settle h)

/-- With one stream that writes, settling is about that stream. -/
theorem quiet_cases (hq : Quiet file w) (h : Settle w w') {s : Stream}
    (hf : w.streams file = some s) : ∃ b rest d, s.pending = b :: rest ∧
      w.files s.name = some d ∧
      w' = (w.setFile s.name (some (overwrite d (s.pos - (rest.length + 1)) [b]))).setStream file
        (some ⟨s.name, s.pos, rest⟩) := by
  obtain ⟨file', name, pos, b, rest, d, hs, hd, rfl⟩ := settle_cases h
  obtain rfl : file' = file := by
    by_contra hne
    exact absurd (hq _ _ hne hs) (List.cons_ne_nil _ _)
  obtain rfl := Option.some.inj (hf.symm.trans hs)
  exact ⟨b, rest, d, rfl, hd, rfl⟩

theorem quiet_setStream {s : Option Stream} (hq : Quiet file w) :
    Quiet file (w.setStream file s) := by
  intro file' t hne ht
  rw [setStream_other hne] at ht
  exact hq file' t hne ht

/-- Streams with nothing pending may come and go beside the one that writes. -/
theorem quiet_replace {other : Nat} {t : Option Stream} (hq : Quiet file w)
    (ht : ∀ s, t = some s → s.pending = []) : Quiet file (w.setStream other t) := by
  intro file' s hne hs
  by_cases he : file' = other
  · subst he
    exact ht s (setStream_same.symm.trans hs)
  · rw [setStream_other he] at hs
    exact hq file' s hne hs

theorem still_replace {t : Option Stream} (hq : Quiet file w)
    (ht : ∀ s, t = some s → s.pending = []) : Still (w.setStream file t) := by
  intro file' s hs
  by_cases he : file' = file
  · subst he
    exact ht s (setStream_same.symm.trans hs)
  · rw [setStream_other he] at hs
    exact hq file' s he hs

theorem still_setStream (hq : Quiet file w) (pos : Nat) :
    Still (w.setStream file (some ⟨name, pos, []⟩)) := by
  refine still_replace hq (fun s hs => ?_)
  cases hs
  rfl

theorem still_close (hq : Quiet file w) : Still (w.setStream file none) :=
  still_replace hq nofun

section

variable {α : Type} {env : Environment Call Answer World}
variable {P : Outcome Exit α → World → Prop} {I : World → Prop}

/-- A call of the library in a state that an invariant describes. -/
theorem guarantees_library (he : ∀ w c a w', env w c a w' → flaky w c a w') {c : Call}
    {k : Answer c → Process α} (hc : P .cut w)
    (hk : ∀ a w₁, effect w c a w₁ → ∀ w', Relation.ReflTransGen Settle w₁ w' →
      Guarantees env (k a) w' P) : Guarantees env (do let a ← library c; k a) w P := by
  refine guarantees_call.mpr ⟨hc, fun a w' ha => ?_⟩
  obtain ⟨w₁, he, hs⟩ := he _ _ _ _ ha
  exact hk a w₁ he w' hs

/-- When `fseek` succeeds nothing is pending any more. -/
theorem fseek_guarantees (he : ∀ w c a w', env w c a w' → flaky w c a w') {s : Stream}
    {offset : Int} {whence : Whence} {code : Nat} {message : Bytes} {k : Process α}
    (hs : w.streams file = some s) (hq : Quiet file w)
    (hI : ∀ w w', Settle w w' → I w → I w') (hi : I w) (hf : I (w.forget file s))
    (hP : ∀ w, I w → P .cut w ∧ ∀ e, P (.halted e) w)
    (hk : s.pending = [] → ∀ d (pos : Nat), w.files s.name = some d →
      target d.length offset whence = pos →
      Guarantees env k (w.setStream file (some ⟨s.name, pos, []⟩)) P) :
    Guarantees env (do errIf ((← fseek file offset whence) = -1) code message; k) w P := by
  refine guarantees_library he (hP w hi).1 (fun a w₁ ha w' hw => ?_)
  obtain ⟨rfl, hw₁⟩ | ⟨t, d, pos, ht, hp, hd, hpos, rfl, rfl⟩ := ha
  · have hi₁ : I w₁ := by
      obtain rfl | ⟨t, ht, rfl⟩ := hw₁
      · exact hi
      · obtain rfl := Option.some.inj (hs.symm.trans ht)
        exact hf
    exact guarantees_errIf (hP _ (settled hI hi₁ hw)) (fun h => absurd rfl h)
  · obtain rfl := Option.some.inj (hs.symm.trans ht)
    rw [still_settles (still_setStream hq pos) hw]
    refine (FileSystem.errIf_zero code message).symm ▸ ?_
    exact hk hp d pos hd hpos

end

/-- A stream reads, and no other writes. -/
structure Reading (files : Name → Option Bytes) (file : Nat) (name : Name) (w : World) : Prop where
  unchanged : w.files = files
  place : ∃ pos, w.streams file = some ⟨name, pos, []⟩
  quiet : Quiet file w

variable {files : Name → Option Bytes}

theorem Reading.still (h : Reading files file name w) : Still w := by
  intro file' s hs
  by_cases hf : file' = file
  · subst hf
    obtain ⟨pos, hp⟩ := h.place
    rw [hp] at hs
    cases hs
    rfl
  · exact h.quiet file' s hf hs

theorem Reading.move (h : Reading files file name w) (pos : Nat) :
    Reading files file name (w.setStream file (some ⟨name, pos, []⟩)) :=
  ⟨h.unchanged, ⟨pos, setStream_same⟩, quiet_setStream h.quiet⟩

/-- The bytes `u` are written behind a content: some of them have come to the
file, the others are pending. -/
structure Writing (files : Name → Option Bytes) (name : Name) (base u : Bytes) (file : Nat)
    (w : World) : Prop where
  quiet : Quiet file w
  stored : ∃ k, k ≤ u.length ∧ w.files = Function.update files name (some (base ++ u.take k)) ∧
    w.streams file = some ⟨name, base.length + u.length, u.drop k⟩

theorem append_next {base u rest : Bytes} {b : UInt8} {k : Nat} (hk : u.drop k = b :: rest) :
    overwrite (base ++ u.take k) (base.length + u.length - (rest.length + 1)) [b] =
      base ++ u.take (k + 1) ∧ rest = u.drop (k + 1) ∧ k + 1 ≤ u.length := by
  have hl := congrArg List.length hk
  rw [List.length_drop, List.length_cons] at hl
  have hpos : base.length + u.length - (rest.length + 1) = (base ++ u.take k).length := by
    rw [List.length_append, List.length_take]
    omega
  have htake : u.take (k + 1) = u.take k ++ [b] := by
    rw [List.take_add, hk, List.take_succ_cons, List.take_zero]
  refine ⟨?_, ?_, by omega⟩
  · rw [hpos, overwrite_end, htake, List.append_assoc]
  · rw [← List.drop_drop, hk, List.drop_succ_cons, List.drop_zero]

variable {base u : Bytes}

theorem Writing.settle (h : Writing files name base u file w) (hs : Settle w w') :
    Writing files name base u file w' := by
  obtain ⟨k, hk, hd, hf⟩ := h.stored
  obtain ⟨b, rest, d, hp, hd', rfl⟩ := quiet_cases h.quiet hs hf
  rw [hd, Function.update_self] at hd'
  cases hd'
  obtain ⟨hover, hrest, hle⟩ := append_next hp
  refine ⟨quiet_setStream h.quiet, k + 1, hle, ?_, ?_⟩
  · rw [← hover, setStream_files, World.setFile, hd, Function.update_idem]
  · rw [hrest]
    exact setStream_same

theorem Writing.beside (h : Writing files name base u file w) {other : Nat} {t : Option Stream}
    (hne : other ≠ file) (ht : ∀ s, t = some s → s.pending = []) :
    Writing files name base u file (w.setStream other t) := by
  obtain ⟨k, hk, hd, hf⟩ := h.stored
  exact ⟨quiet_replace h.quiet ht, k, hk, hd, (setStream_other hne.symm).trans hf⟩

theorem Writing.put (h : Writing files name base u file w) (bytes : Bytes) {s : Stream}
    (hs : w.streams file = some s) :
    Writing files name base (u ++ bytes) file (w.put file s bytes) := by
  obtain ⟨k, hk, hd, hf⟩ := h.stored
  obtain rfl := Option.some.inj (hf.symm.trans hs)
  refine ⟨quiet_setStream h.quiet, k, ?_, ?_, ?_⟩
  · rw [List.length_append]
    omega
  · rw [List.take_append_of_le_length hk]
    exact hd
  · rw [List.drop_append_of_le_length hk, List.length_append, ← Nat.add_assoc]
    exact setStream_same

variable {env : Environment Call Answer World}

theorem nextBitFrom_guarantees (he : ∀ w c a w', env w c a w' → flaky w c a w') (s : Statics)
    (h : Reading files file name w) :
    Guarantees env (nextBitFrom s file) w (fun _ => Reading files file name) := by
  rw [nextBitFrom]
  by_cases ho : s.curOffs + 1 = 8
  · simp only [ho, if_true, fgetc]
    refine guarantees_library he h (fun a w₁ ha w' hw => ?_)
    obtain ⟨_, rfl⟩ | ⟨t, d, b, ht, _, _, _, _, rfl⟩ := ha
    · rw [still_settles h.still hw]
      exact guarantees_done.mpr ⟨h, h⟩
    · obtain ⟨pos, hp⟩ := h.place
      obtain rfl := Option.some.inj (hp.symm.trans ht)
      rw [still_settles (h.move _).still hw]
      exact guarantees_done.mpr ⟨h.move _, h.move _⟩
  · simp only [ho, if_false, Program.pure_eq, Program.done_bind]
    exact guarantees_done.mpr ⟨h, h⟩

/-- The division only moves the stream it reads from. -/
theorem division_guarantees (he : ∀ w c a w', env w c a w' → flaky w c a w') (bitsCnt : Int)
    (d : Division) (h : Reading files file name w) :
    Guarantees env (.loop (divisionStep file bitsCnt) d .done) w
      (fun _ => Reading files file name) := by
  refine guarantees_loop (fun _ => Reading files file name) h (fun d w h => ?_)
  rw [divisionStep]
  split
  · refine guarantees_bind (guarantees_mono (nextBitFrom_guarantees he d.statics h)
      (fun o w' h => ?_))
    cases o with
    | cut | halted _ => exact h
    | returned r => exact guarantees_done.mpr ⟨h, h⟩
  · exact guarantees_done.mpr ⟨h, guarantees_done.mpr ⟨h, h⟩⟩

/-- A file system with a single file. -/
def only (name : Name) (d : Bytes) : Name → Option Bytes :=
  Function.update (fun _ => none) name (some d)

/-- A stream with nothing pending, and the content of its file. -/
def World.behind (w : World) (file : Nat) : Option (Stream × Bytes) := do
  let s ← w.streams file
  let d ← w.files s.name
  if s.pending = [] then return (s, d) else none

def World.unused (w : World) : Option Nat := [0, 1].find? (fun file => (w.streams file).isNone)

/-- The library when nothing is buffered; on a full disk no file can grow. -/
def disk (full : Bool) (w : World) : (c : Call) → Answer c × World
  | .rename old new => match w.files old with
      | none => (-1, w)
      | some d => (0, (w.setFile old none).setFile new (some d))
  | .stat name => ((w.files name).map (fun d => (d.length : Int)), w)
  | .fopen name .writeExclusive => match w.unused, w.files name with
      | some file, none =>
        (.ok file, (w.setFile name (some [])).setStream file (some ⟨name, 0, []⟩))
      | _, _ => (.error .eexist, w)
  | .fopen name .read | .fopen name .readUpdate => match w.unused, w.files name with
      | some file, some _ => (.ok file, w.setStream file (some ⟨name, 0, []⟩))
      | _, _ => (.error .other, w)
  | .fseek file offset whence => match w.behind file with
      | some (s, d) => match target d.length offset whence with
        | .ofNat pos => (0, w.setStream file (some ⟨s.name, pos, []⟩))
        | .negSucc _ => (-1, w)
      | none => (-1, w)
  | .ftell file => match w.streams file with
      | some s => (s.pos, w)
      | none => (-1, w)
  | .fgetc file => match w.behind file with
      | some (s, d) => match d[s.pos]? with
        | some b => (b.toBitVec.setWidth 32, w.setStream file (some ⟨s.name, s.pos + 1, []⟩))
        | none => (-1, w)
      | none => (-1, w)
  | .fputc c file => match w.streams file, w.behind file with
      | none, _ => (-1, w)
      | some s, none => if full then (-1, w.forget file s)
        else ((c.setWidth 8).setWidth 32, w.put file s [⟨c.setWidth 8⟩])
      | some s, some (_, d) => if full ∧ d.length ≤ s.pos then (-1, w.forget file s)
        else ((c.setWidth 8).setWidth 32, ((w.put file s [⟨c.setWidth 8⟩]).setFile s.name
          (some (overwrite d s.pos [⟨c.setWidth 8⟩]))).setStream file
            (some ⟨s.name, s.pos + 1, []⟩))
  | .fread count file => match w.behind file with
      | some (s, d) => ((d.drop s.pos).take count, w.setStream file
          (some ⟨s.name, s.pos + ((d.drop s.pos).take count).length, []⟩))
      | none => ([], w)
  | .fwrite bytes file => match w.streams file with
      | none => (0, w)
      | some s => (0, if bytes = [] then w.put file s bytes else w.forget file s)
  | .fclose file => (if w.streams file = none ∨ (w.behind file).isSome then 0 else -1,
      w.setStream file none)
  | .unlink name => match w.files name with
      | none => (-1, w)
      | some _ => (0, w.setFile name none)

theorem behind_cases {s : Stream} (h : w.behind file = some (s, d)) :
    w.streams file = some s ∧ s.pending = [] ∧ w.files s.name = some d := by
  simp only [World.behind, Option.bind_eq_bind, Option.bind_eq_some_iff] at h
  obtain ⟨t, ht, x, hx, h⟩ := h
  split at h
  · next hp =>
    cases h
    exact ⟨ht, hp, hx⟩
  · cases h

theorem behind_of {s : Stream} (hs : w.streams file = some s) (hp : s.pending = [])
    (hd : w.files s.name = some d) : w.behind file = some (s, d) := by
  simp [World.behind, hs, hp, hd]

theorem streams_unused (h : w.unused = some file) : w.streams file = none :=
  Option.isNone_iff_eq_none.mp (List.find?_some (p := fun file => (w.streams file).isNone) h)

/-- A byte that is written at once. -/
theorem flaky_fputc {c : BitVec 32} {s : Stream} (hs : w.behind file = some (s, d)) :
    flaky w (.fputc c file) ((c.setWidth 8).setWidth 32)
      (((w.put file s [⟨c.setWidth 8⟩]).setFile s.name
        (some (overwrite d s.pos [⟨c.setWidth 8⟩]))).setStream file
          (some ⟨s.name, s.pos + 1, []⟩)) := by
  obtain ⟨hs, hp, hd⟩ := behind_cases hs
  refine ⟨w.put file s [⟨c.setWidth 8⟩], ?_, .single ?_⟩
  · simp [effect, hs]
  · have hput : (w.put file s [⟨c.setWidth 8⟩]).streams file =
        some ⟨s.name, s.pos + 1, [⟨c.setWidth 8⟩]⟩ := by
      rw [World.put, setStream_same, hp]
      rfl
    exact .byte hput hd

section

variable {full : Bool}

theorem disk_fseek (offset : Int) (whence : Whence) : effect w (.fseek file offset whence)
    (disk full w (.fseek file offset whence)).1 (disk full w (.fseek file offset whence)).2 := by
  cases hb : w.behind file with
  | none => simp [disk, hb, effect]
  | some b =>
    obtain ⟨s, d⟩ := b
    obtain ⟨hs, hp, hd⟩ := behind_cases hb
    cases ht : target d.length offset whence with
    | ofNat pos =>
      simp only [disk, hb, ht]
      exact .inr ⟨s, d, pos, hs, hp, hd, ht, rfl, rfl⟩
    | negSucc n => simp [disk, hb, ht, effect]

theorem disk_fgetc : effect w (.fgetc file) (disk full w (.fgetc file)).1
    (disk full w (.fgetc file)).2 := by
  cases hb : w.behind file with
  | none => simp [disk, hb, effect]
  | some b =>
    obtain ⟨s, d⟩ := b
    obtain ⟨hs, hp, hd⟩ := behind_cases hb
    cases hc : d[s.pos]? with
    | none => simp [disk, hb, hc, effect]
    | some b =>
      simp only [disk, hb, hc]
      exact .inr ⟨s, d, b, hs, hp, hd, hc, rfl, rfl⟩

theorem disk_fread (count : Nat) : effect w (.fread count file)
    (disk full w (.fread count file)).1 (disk full w (.fread count file)).2 := by
  cases hb : w.behind file with
  | none => simp [disk, hb, effect]
  | some b =>
    obtain ⟨s, d⟩ := b
    obtain ⟨hs, hp, hd⟩ := behind_cases hb
    simp only [disk, hb]
    exact .inr ⟨s, d, hs, hp, hd, List.prefix_refl _, rfl⟩

theorem disk_fclose : effect w (.fclose file) (disk full w (.fclose file)).1
    (disk full w (.fclose file)).2 := by
  refine ⟨rfl, ?_⟩
  simp only [disk]
  split
  · next h =>
    refine .inr ⟨rfl, fun s hs => ?_⟩
    obtain hn | hb := h
    · rw [hs] at hn
      cases hn
    · obtain ⟨⟨t, d⟩, hb⟩ := Option.isSome_iff_exists.mp hb
      obtain rfl : s = t := Option.some.inj (hs.symm.trans (behind_cases hb).1)
      exact (behind_cases hb).2.1
  · exact .inl rfl

theorem flaky_effect {c : Call} {a : Answer c} (h : effect w c a w') : flaky w c a w' :=
  ⟨w', h, .refl⟩

/-- The only call after which something settles. -/
theorem disk_fputc (c : BitVec 32) : flaky w (.fputc c file) (disk full w (.fputc c file)).1
    (disk full w (.fputc c file)).2 := by
  cases hs : w.streams file with
  | none =>
    apply flaky_effect
    simp [disk, hs, effect]
  | some s =>
    cases hb : w.behind file with
    | none =>
      apply flaky_effect
      cases full <;> simp [disk, hs, hb, effect, Spoiled]
    | some b =>
      obtain ⟨t, d⟩ := b
      obtain rfl : s = t := Option.some.inj (hs.symm.trans (behind_cases hb).1)
      simp only [disk, hs, hb]
      split
      · apply flaky_effect
        simp [effect, hs, Spoiled]
      · exact flaky_fputc hb

end

theorem disk_flaky (full : Bool) (w : World) (c : Call) :
    flaky w c (disk full w c).1 (disk full w c).2 := by
  cases c with
  | rename old new =>
    apply flaky_effect
    cases hd : w.files old <;> simp [disk, hd, effect]
  | stat name =>
    apply flaky_effect
    refine ⟨rfl, ?_⟩
    cases hd : w.files name <;> simp [disk, hd]
  | fopen name mode =>
    apply flaky_effect
    cases hf : w.unused with
    | none => cases mode <;> simp [disk, hf, effect]
    | some file =>
      have hs := streams_unused hf
      cases hd : w.files name with
      | none => cases mode <;> simp [disk, hf, hd, hs, effect]
      | some d => cases mode <;> simp [disk, hf, hd, hs, effect]
  | fseek file offset whence => exact flaky_effect (disk_fseek offset whence)
  | ftell file =>
    apply flaky_effect
    cases hs : w.streams file <;> simp [disk, hs, effect]
  | fgetc file => exact flaky_effect disk_fgetc
  | fputc c file => exact disk_fputc c
  | fread count file => exact flaky_effect (disk_fread count)
  | fwrite bytes file =>
    apply flaky_effect
    cases hs : w.streams file with
    | none => simp [disk, hs, effect]
    | some s => cases bytes <;> simp [disk, hs, effect, Spoiled]
  | fclose file => exact flaky_effect disk_fclose
  | unlink name =>
    apply flaky_effect
    cases hd : w.files name <;> simp [disk, hd, effect]

end Ti3.Crc.Failures
