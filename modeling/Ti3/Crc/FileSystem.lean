import Ti3.Crc.Tool
import Ti3.Library.Determinism

namespace Ti3.Crc.FileSystem

open Library.CString Library.Interaction Library.Rules Library.Determinism Tool

structure Stream where
  name : Name
  pos : Nat

/-- The contents of the files by name and the open streams by number. A stream
keeps the name it was opened under: no file is renamed or unlinked while open. -/
structure World where
  files : Name → Option Bytes
  streams : Nat → Option Stream
  opened : Nat

namespace World

def setFile (w : World) (name : Name) (d : Option Bytes) : World :=
  { w with files := Function.update w.files name d }

def setStream (w : World) (file : Nat) (s : Option Stream) : World :=
  { w with streams := Function.update w.streams file s }

def openStream (w : World) (name : Name) : World :=
  { w.setStream w.opened (some ⟨name, 0⟩) with opened := w.opened + 1 }

/-- The stream and the content of the file behind it. -/
def behind (w : World) (file : Nat) : Option (Stream × Bytes) := do
  let s ← w.streams file
  let d ← w.files s.name
  return (s, d)

end World

/-- Write over a content from a position on, padding with zeros. -/
def overwrite (d : Bytes) (pos : Nat) (bytes : Bytes) : Bytes :=
  d.take pos ++ List.replicate (pos - d.length) 0 ++ bytes ++ d.drop (pos + bytes.length)

def write (w : World) (file : Nat) (s : Stream) (d bytes : Bytes) : World :=
  (w.setFile s.name (some (overwrite d s.pos bytes))).setStream file
    (some ⟨s.name, s.pos + bytes.length⟩)

/-- The library on a file system on which no call fails. -/
def perform (w : World) : (c : Call) → Answer c × World
  | .rename old new => match w.files old with
    | none => (-1, w)
    | some d => (0, (w.setFile old none).setFile new (some d))
  | .stat name => ((w.files name).map (fun d => (d.length : Int)), w)
  | .fopen name .writeExclusive => match w.files name with
    | none => (.ok w.opened, (w.setFile name (some [])).openStream name)
    | some _ => (.error .eexist, w)
  | .fopen name .read | .fopen name .readUpdate => match w.files name with
    | none => (.error .other, w)
    | some _ => (.ok w.opened, w.openStream name)
  | .fseek file offset whence => match w.behind file with
    | none => (-1, w)
    | some (s, d) =>
      let pos : Int := match whence with
        | .set => offset
        | .fileEnd => d.length + offset
      if pos < 0 then (-1, w) else (0, w.setStream file (some ⟨s.name, pos.toNat⟩))
  | .ftell file => match w.streams file with
    | none => (-1, w)
    | some s => (s.pos, w)
  | .fgetc file => match w.behind file with
    | none => (-1, w)
    | some (s, d) => match d[s.pos]? with
      | none => (-1, w)
      | some b => (b.toBitVec.setWidth 32, w.setStream file (some ⟨s.name, s.pos + 1⟩))
  | .fputc c file => match w.behind file with
    | none => (-1, w)
    | some (s, d) => (c.setWidth 8 |>.setWidth 32, write w file s d [⟨c.setWidth 8⟩])
  | .fread count file => match w.behind file with
    | none => ([], w)
    | some (s, d) =>
      let bytes := (d.drop s.pos).take count
      (bytes, w.setStream file (some ⟨s.name, s.pos + bytes.length⟩))
  | .fwrite bytes file => match w.behind file with
    | none => (0, w)
    | some (s, d) => (bytes.length, write w file s d bytes)
  | .fclose file => match w.streams file with
    | none => (-1, w)
    | some _ => (0, w.setStream file none)
  | .unlink name => match w.files name with
    | none => (-1, w)
    | some _ => (0, w.setFile name none)

abbrev faultless : Environment Call Answer World := handled perform

variable {w : World} {file : Nat} {name : Name} {d : Bytes} {pos : Nat}

@[simp] theorem streams_setStream (s : Option Stream) : (w.setStream file s).streams file = s :=
  Function.update_self _ _ _

@[simp] theorem setStream_setStream (s t : Option Stream) :
    (w.setStream file s).setStream file t = w.setStream file t := by
  simp only [World.setStream, Function.update_idem]

theorem behind_eq {s : Stream} (hs : w.streams file = some s) (hf : w.files s.name = some d) :
    w.behind file = some (s, d) := by
  simp [World.behind, hs, hf]

theorem behind_setStream (hf : w.files name = some d) :
    (w.setStream file (some ⟨name, pos⟩)).behind file = some (⟨name, pos⟩, d) :=
  behind_eq (streams_setStream _) hf

theorem perform_fgetc (hf : w.files name = some d) (hp : pos < d.length) :
    perform (w.setStream file (some ⟨name, pos⟩)) (.fgetc file) =
      ((d.getD pos 0).toBitVec.setWidth 32, w.setStream file (some ⟨name, pos + 1⟩)) := by
  simp [perform, behind_setStream hf, hp]

theorem perform_fclose (hs : w.streams file ≠ none) :
    perform w (.fclose file) = (0, w.setStream file none) := by
  obtain ⟨s, hs⟩ := Option.ne_none_iff_exists'.mp hs
  simp only [perform, hs]

theorem perform_unlink (hf : w.files name ≠ none) :
    perform w (.unlink name) = (0, w.setFile name none) := by
  obtain ⟨d, hd⟩ := Option.ne_none_iff_exists'.mp hf
  simp only [perform, hd]

/-- A file with a given content and a stream at a given position of it. -/
def onFile (w : World) (file : Nat) (name : Name) (d : Bytes) (pos : Nat) : World :=
  (w.setFile name (some d)).setStream file (some ⟨name, pos⟩)

@[simp] theorem streams_onFile : (onFile w file name d pos).streams file = some ⟨name, pos⟩ :=
  streams_setStream _

@[simp] theorem files_onFile : (onFile w file name d pos).files name = some d :=
  Function.update_self _ _ _

theorem behind_onFile : (onFile w file name d pos).behind file = some (⟨name, pos⟩, d) :=
  behind_eq streams_onFile files_onFile

theorem setStream_onFile (p : Nat) :
    (onFile w file name d pos).setStream file (some ⟨name, p⟩) = onFile w file name d p :=
  setStream_setStream _ _

theorem write_onFile (bytes : Bytes) :
    write (onFile w file name d pos) file ⟨name, pos⟩ d bytes =
      onFile w file name (overwrite d pos bytes) (pos + bytes.length) := by
  simp only [write, onFile, World.setFile, World.setStream, Function.update_idem]

theorem perform_fseek_onFile (offset : Int) (whence : Whence) (target : Nat)
    (ht : (match whence with | .set => offset | .fileEnd => d.length + offset) = (target : Int)) :
    perform (onFile w file name d pos) (.fseek file offset whence) =
      (0, onFile w file name d target) := by
  simp only [perform, behind_onFile, ht, setStream_onFile, Int.toNat_natCast]
  rw [if_neg (by omega)]

theorem overwrite_end (d bytes : Bytes) : overwrite d d.length bytes = d ++ bytes := by
  simp [overwrite]

theorem overwrite_append (d old bytes : Bytes) :
    overwrite (d ++ old) d.length bytes = d ++ bytes ++ old.drop bytes.length := by
  have hz : d.length - (d.length + old.length) = 0 := by omega
  simp [overwrite, hz, List.drop_append]

theorem perform_fputc_end (c : BitVec 32) (hp : pos = d.length) :
    (perform (onFile w file name d pos) (.fputc c file)).2 =
      onFile w file name (d ++ [⟨c.setWidth 8⟩]) (pos + 1) := by
  subst hp
  simp only [perform, behind_onFile, write_onFile, List.length_singleton, overwrite_end]

theorem perform_fputc_over (c : BitVec 32) (b : UInt8) (rest : Bytes) (hp : pos = d.length) :
    (perform (onFile w file name (d ++ b :: rest) pos) (.fputc c file)).2 =
      onFile w file name (d ++ ⟨c.setWidth 8⟩ :: rest) (pos + 1) := by
  subst hp
  simp [perform, behind_onFile, write_onFile, overwrite_append]

theorem perform_ftell_onFile :
    perform (onFile w file name d pos) (.ftell file) = ((pos : Int), onFile w file name d pos) := by
  simp only [perform, streams_onFile]

theorem perform_fclose_onFile : perform (onFile w file name d pos) (.fclose file) =
    (0, (onFile w file name d pos).setStream file none) :=
  perform_fclose (by simp)

theorem errIf_neg {failed : Prop} [Decidable failed] (h : ¬ failed) (code : Nat) (message : Bytes) :
    errIf failed code message = .done () := if_neg h

theorem errIf_zero (code : Nat) (message : Bytes) :
    errIf ((0 : Int) = -1) code message = .done () := errIf_neg (by decide) code message

theorem guarantees_errIf {α σ : Type} {env : Environment Call Answer σ} {w : σ}
    {P : Outcome Exit α → σ → Prop} {failed : Prop} [Decidable failed] {code : Nat}
    {message : Bytes} {k : Process α} (hP : P .cut w ∧ ∀ e, P (.halted e) w)
    (hk : ¬ failed → Guarantees env k w P) :
    Guarantees env (do errIf failed code message; k) w P :=
  guarantees_unless ⟨hP.1, hP.2 _⟩ hk

end Ti3.Crc.FileSystem
