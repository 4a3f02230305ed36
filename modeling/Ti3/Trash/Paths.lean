import Ti3.Trash.Directories

namespace Ti3.Trash.Paths

open Library.CString Library.CMemory Library.Interaction Library.Rules Library.Determinism
open Trashcan Directories

/-- Two filenames joined with a slash. -/
def joined (filename1 filename2 : Bytes) : Bytes := filename1 ++ slash :: filename2

/-- The path of a file in the trash. -/
def trashPath (homedir filename : Bytes) : Bytes := joined (joined homedir trashdirname) filename

variable {n : Nat} {s t homedir filename : Bytes}

theorem not_mem_joined (hs : 0 ∉ s) (ht : 0 ∉ t) : 0 ∉ joined s t := by
  simp [joined, hs, ht, slash]

theorem filecat_eq (m : Buffer n) (hs : 0 ∉ s) (ht : 0 ∉ t) (hn : n = filecatlen s t) :
    ∃ m', filecat m s t = some m' ∧ m'.string start = some (joined s t) := by
  have hlen : m.bytes.length = s.length + t.length + 2 := m.size.trans hn
  obtain ⟨m₁, v₁, h₁, hm₁⟩ := strcpy_fits (u := []) (t := s) (i := 0) rfl rfl
    (show s.length < m.bytes.length by omega)
  have hv₁ := m₁.size
  rw [hm₁] at hv₁
  simp only [List.nil_append, List.length_append, List.length_cons, filecatlen] at hv₁ hn
  obtain ⟨m₂, v₂, h₂, hm₂⟩ := strcat_fits (t := ascii "/") hm₁ hs
    (by rw [show (ascii "/").length = 1 from rfl]; omega)
  have hv₂ := m₂.size
  rw [hm₂] at hv₂
  simp only [List.nil_append, List.length_append, List.length_cons,
    show (ascii "/").length = 1 from rfl] at hv₂
  have hs₂ : 0 ∉ s ++ ascii "/" := List.not_mem_append hs (by decide)
  obtain ⟨m₃, v₃, h₃, hm₃⟩ := strcat_fits (t := t) hm₂ hs₂ (by omega)
  have hbytes : m₃.bytes = [] ++ joined s t ++ 0 :: v₃ := by
    rw [hm₃, joined, List.nil_append, List.append_assoc s]
    rfl
  have hstring : m₃.string start = some (joined s t) :=
    string_inside hbytes rfl (not_mem_joined hs ht)
  refine ⟨m₃, ?_, hstring⟩
  simp only [filecat, start, h₁, h₂, h₃, Option.bind_eq_bind, Option.bind_some]

theorem trashdirname_string : 0 ∉ trashdirname := by decide

/-- Whatever the arrays hold, the string in the first one is the path. -/
theorem filecat_twice (h₀ : 0 ∉ homedir) (h₁ : 0 ∉ filename)
    (m : Buffer (homedir.length + trashdirname.length + filename.length + 3))
    (m' : Buffer (filecatlen homedir trashdirname)) :
    (do
      let trashdir ← access (filecat m' homedir trashdirname)
      access (filecat m (← access (trashdir.string start)) filename)) >>=
        (fun trashname => access (trashname.string start)) =
      .done (trashPath homedir filename) := by
  obtain ⟨m₁, hc₁, hs₁⟩ := filecat_eq m' h₀ trashdirname_string rfl
  obtain ⟨m₂, hc₂, hs₂⟩ := filecat_eq m (not_mem_joined h₀ trashdirname_string) h₁
    (by simp [joined, filecatlen]; omega)
  simp only [hc₁, hs₁, hc₂, hs₂, access, Program.pure_eq, Program.done_bind, trashPath]

section

variable {Dir : Type} {sys : System Dir}

theorem place_plain (hf : slash ∉ filename) : sys.place filename = (sys.dirAt [], filename) := by
  simp only [System.place, splitPath, lastIndex_eq_none hf]

theorem splitPath_joined (hf : slash ∉ filename) :
    splitPath (joined s filename) = (joined s [], filename) := by
  have hs : joined s filename = joined s [] ++ filename := by
    simp [joined]
  have hl : s.length + 1 = (joined s []).length := by
    simp [joined]
  have hlast : lastIndex slash (joined s filename) = some s.length := lastIndex_append _ _ hf
  simp only [splitPath, hlast]
  rw [hl, hs, List.take_left, List.drop_left]

theorem place_trash (hf : slash ∉ filename) : sys.place (trashPath homedir filename) =
    (sys.dirAt (trashPath homedir []), filename) := by
  rw [System.place, trashPath, splitPath_joined hf]
  rfl

end

/-- An environment that knows the home directory; arrays may hold anything. -/
structure HomeAt {σ : Type} (env : Environment Call Answer σ) (home : Option Bytes) : Prop where
  getenv : ∀ w a w', env w (.getenv (ascii "HOME")) a w' → a = home ∧ w' = w
  array : ∀ w n a w', env w (.array n) a w' → w' = w

variable {σ : Type} {env : Environment Call Answer σ} {w : σ}

theorem trashname_guarantees (he : HomeAt env (some homedir)) (h₀ : 0 ∉ homedir)
    (h₁ : 0 ∉ filename) : Guarantees env (trashname filename) w
      (fun o w' => w' = w ∧ (o = .cut ∨ o = .returned (trashPath homedir filename))) := by
  have hdone : Guarantees env (.done (trashPath homedir filename) : Process Bytes) w
      (fun o w' => w' = w ∧ (o = .cut ∨ o = .returned (trashPath homedir filename))) :=
    guarantees_done.mpr ⟨⟨rfl, .inl rfl⟩, rfl, .inr rfl⟩
  rw [trashname]
  refine guarantees_call.mpr ⟨⟨rfl, .inl rfl⟩, fun a w₁ ha => ?_⟩
  obtain ⟨rfl, rfl⟩ := he.getenv _ _ _ ha
  refine guarantees_call.mpr ⟨⟨rfl, .inl rfl⟩, fun m w₁ hm => ?_⟩
  obtain rfl := he.array _ _ _ _ hm
  refine guarantees_call.mpr ⟨⟨rfl, .inl rfl⟩, fun a w₁ ha => ?_⟩
  obtain ⟨rfl, rfl⟩ := he.getenv _ _ _ ha
  refine guarantees_call.mpr ⟨⟨rfl, .inl rfl⟩, fun m' w₁ hm' => ?_⟩
  obtain rfl := he.array _ _ _ _ hm'
  rw [← filecat_twice h₀ h₁ m m'] at hdone
  exact hdone

/-- The path is made wherever the library answers. -/
theorem trashname_answers (hget : env w (.getenv (ascii "HOME")) (some homedir) w)
    (harray : ∀ n, ∃ m, env w (.array n) m w) (h₀ : 0 ∉ homedir) (h₁ : 0 ∉ filename) :
    Runs env (trashname filename) w (.returned (trashPath homedir filename)) w := by
  obtain ⟨m, hm⟩ := harray (homedir.length + trashdirname.length + filename.length + 3)
  obtain ⟨m', hm'⟩ := harray (filecatlen homedir trashdirname)
  have hdone : Runs env (.done (trashPath homedir filename) : Process Bytes) w
      (.returned (trashPath homedir filename)) w := runs_done
  rw [← filecat_twice h₀ h₁ m m'] at hdone
  rw [trashname]
  exact runs_call hget (runs_call hm (runs_call hget (runs_call hm' hdone)))

theorem string_single {m : Buffer 1} (h : m.string start = some s) : s = [] := by
  obtain ⟨b, hb⟩ := List.length_eq_one_iff.mp m.size
  simp only [Buffer.string, start, hb, Int.toNat_zero, List.drop_zero] at h
  split at h
  · next h₀ =>
    cases List.mem_singleton.mp h₀.2
    exact (Option.some.inj h).symm
  · cases h

/-- Without a home directory the array has one byte, and the string in it can
only be empty. -/
theorem trashname_unset (he : HomeAt env none) : Guarantees env (trashname filename) w
    (fun o w' => w' = w ∧ (o = .cut ∨ o = .halted .fault ∨ o = .returned [])) := by
  rw [trashname]
  refine guarantees_call.mpr ⟨⟨rfl, .inl rfl⟩, fun a w₁ ha => ?_⟩
  obtain ⟨rfl, rfl⟩ := he.getenv _ _ _ ha
  refine guarantees_call.mpr ⟨⟨rfl, .inl rfl⟩, fun m w₁ hm => ?_⟩
  obtain rfl := he.array _ _ _ _ hm
  refine guarantees_call.mpr ⟨⟨rfl, .inl rfl⟩, fun a w₁ ha => ?_⟩
  obtain ⟨rfl, rfl⟩ := he.getenv _ _ _ ha
  change Guarantees env (access (Buffer.string m start)) _ _
  cases hs : Buffer.string m start with
  | none => exact guarantees_halt.mpr ⟨⟨rfl, .inl rfl⟩, rfl, .inr (.inl rfl)⟩
  | some s =>
    rw [string_single hs]
    exact guarantees_done.mpr ⟨⟨rfl, .inl rfl⟩, rfl, .inr (.inr rfl)⟩

end Ti3.Trash.Paths
