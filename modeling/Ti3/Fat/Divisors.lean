import Ti3.Fat.Ascent

namespace Ti3.Fat.Divisors

open Library.CString Library.CMemory Library.Interaction Library.Determinism Library.Rules
open DriveLs Image Iterator Listing PathResolution Ascent

/-- The recursive function is called for the directory at `sec`, with the rest of a path. -/
def Visits (drive : Drive) (info : FatInfo) (path : Bytes) (w : World) (sec : UInt32)
    (rest : Bytes) (w' : World) : Prop :=
  ∃ (memory : Buffer (path.length + 1)) (i : Int),
    Heads (handled (perform drive)) (lsStep info) (info.firstRootDirSecNum, argument path, start) w
      (sec, memory, .inside i) w' ∧ memory.string (.inside i) = some rest

/-- The state of the iterator when it looks at the next cluster of the chain. -/
def Follows (drive : Drive) (info : FatInfo) (st : DirEntryIteratorState) (w : World) : Prop :=
  ∃ st' w', Heads (handled (perform drive)) (nextDirEntryStep info) st w st' w' ∧
    st'.entryNr + 1 = st'.maxEntryCnt ∧ st'.isRootDir = false

/-- The divisors of the divisions and remainders that are executed once the image has
been opened: in the calculations of the header, in the construction of an iterator and
in the search for the next cluster, which the listing and the search for a name ask for. -/
inductive Divides (drive : Drive) (path : Bytes) (w : World) : Nat → Prop
  | header {info} : fatInfo drive.image = some info → Divides drive path w info.bytsPerSec.toNat
  | iterator {info sec rest w'} : fatInfo drive.image = some info → info.bytsPerSec ≠ 0 →
      Visits drive info path w sec rest w' → sec ≠ info.firstRootDirSecNum →
      Divides drive path w info.secPerClus.toNat
  | listed {info sec w' st₀ st w₁} : fatInfo drive.image = some info → info.bytsPerSec ≠ 0 →
      Visits drive info path w sec [] w' → newDirEntryIterator info sec = some st₀ →
      Heads (handled (perform drive)) (listStep info) st₀ w' st w₁ → Follows drive info st w₁ →
      Divides drive path w info.bytsPerSec.toNat
  | searched {info sec name rest w' st₀ st w₁} : fatInfo drive.image = some info →
      info.bytsPerSec ≠ 0 → Visits drive info path w sec (name ++ pathDelim :: rest) w' →
      pathDelim ∉ name → newDirEntryIterator info sec = some st₀ →
      Heads (handled (perform drive)) (findStep info name) st₀ w' st w₁ →
      Follows drive info st w₁ → Divides drive path w info.bytsPerSec.toNat

/-- The components lead, one after another, from the root directory to itself. -/
inductive Circles (drive : Drive) (info : FatInfo) (w : World) : List Bytes → World → Prop
  | start : Circles drive info w [] w
  | next {cs w₁ c w₂} : Circles drive info w cs w₁ → info.firstRootDirSecNum ≠ noSuchEntry →
      Runs (handled (perform drive)) (findPathSecNum info info.firstRootDirSecNum c) w₁
        (.returned info.firstRootDirSecNum) w₂ → Circles drive info w (cs ++ [c]) w₂

/-- No component leads out of the root directory. -/
def StaysAtRoot (drive : Drive) (info : FatInfo) (w : World) (cs : List Bytes) : Prop :=
  ∀ pre c post w₁ t w₂, cs = pre ++ c :: post → Circles drive info w pre w₁ →
    Runs (handled (perform drive)) (findPathSecNum info info.firstRootDirSecNum c) w₁
      (.returned t) w₂ → t = noSuchEntry ∨ t = info.firstRootDirSecNum

variable {drive : Drive} {info : FatInfo} {path : Bytes} {w w' : World} {cs pre post : List Bytes}

theorem components_plain (hp : Terminated path) (hz : 0 ∉ path) :
    (∀ c ∈ components path, Component c) ∧ along (components path) [] = path := by
  induction hn : path.length using Nat.strongRecOn generalizing path with
  | _ k ih =>
    obtain rfl | ⟨c, s, rfl, hc, hs⟩ := terminated_cases hp
    · exact ⟨fun c hc => absurd hc List.not_mem_nil, rfl⟩
    · have hlt : s.length < k := by
        rw [← hn]
        simp
        omega
      obtain ⟨hall, halong⟩ := ih s.length hlt hs (fun h => hz (by simp [h])) rfl
      rw [components_cons hc]
      refine ⟨fun d hd => ?_, congrArg (fun t => c ++ pathDelim :: t) halong⟩
      obtain rfl | hd := List.mem_cons.mp hd
      · exact ⟨fun h => hz (List.mem_append_left _ h), hc⟩
      · exact hall d hd

/-- A place in memory from which the path goes on with these components. -/
def Rests {n : Nat} (memory : Buffer n) (p : Pointer) (cs : List Bytes) : Prop :=
  ∃ (i : Int) (u v : Bytes), p = .inside i ∧ memory.bytes = u ++ along cs [] ++ 0 :: v ∧
    i = u.length

theorem rests_argument (cs : List Bytes) : Rests (argument (along cs [])) start cs :=
  ⟨0, [], [], rfl, rfl, rfl⟩

/-- A call that leads to another one has found the next component. -/
theorem lsStep_returned {n : Nat} {sec : UInt32} {memory : Buffer n} {p : Pointer}
    {b : UInt32 × Buffer n × Pointer} (hall : ∀ c ∈ cs, Component c) (h : Rests memory p cs)
    (hr : Runs (handled (perform drive)) (lsStep info (sec, memory, p)) w (.returned (.inl b)) w') :
    ∃ c post, cs = c :: post ∧
      Runs (handled (perform drive)) (findPathSecNum info sec c) w (.returned b.1) w' ∧
      b.1 ≠ noSuchEntry ∧ Rests b.2.1 b.2.2 post := by
  obtain ⟨i, u, v, rfl, hm, hi⟩ := h
  cases cs with
  | nil =>
    have hstring : memory.string (.inside i) = some [] := string_inside hm hi List.not_mem_nil
    simp only [lsStep, hstring, access, Program.pure_eq, Program.done_bind, List.length_nil,
      if_true] at hr
    obtain ⟨_, _, _, hr⟩ := returned_bind hr
    cases (returned_done hr).1
  | cons c post =>
    have hc := hall c List.mem_cons_self
    have hz := zero_not_mem_along (fun d hd => hall d (List.mem_cons_of_mem c hd))
    obtain ⟨memory', hm', hstep⟩ :=
      lsStep_chops info sec hm hi (zero_not_mem_cons hc hz) hc.2
    rw [hstep] at hr
    obtain ⟨t, w₁, hfind, hr⟩ := returned_bind hr
    by_cases ht : t = noSuchEntry
    · rw [if_pos ht] at hr
      exact absurd hr not_returned_halt
    · rw [if_neg ht] at hr
      obtain ⟨hb, rfl⟩ := returned_done hr
      cases hb
      refine ⟨c, post, rfl, hfind, ht, i + c.length + 1, u ++ c ++ [0], v, rfl, hm', ?_⟩
      simp only [hi, List.length_append, List.length_singleton]
      omega

theorem heads_circle {b : UInt32 × Buffer ((along cs []).length + 1) × Pointer}
    (hall : ∀ c ∈ cs, Component c) (hstay : StaysAtRoot drive info w cs)
    (hh : Heads (handled (perform drive)) (lsStep info)
      (info.firstRootDirSecNum, argument (along cs []), start) w b w') :
    ∃ pre post, cs = pre ++ post ∧ Circles drive info w pre w' ∧ b.1 = info.firstRootDirSecNum ∧
      Rests b.2.1 b.2.2 post := by
  refine heads_invariant (fun b w' => ∃ pre post, cs = pre ++ post ∧
    Circles drive info w pre w' ∧ b.1 = info.firstRootDirSecNum ∧ Rests b.2.1 b.2.2 post)
    ⟨[], cs, rfl, .start, rfl, rests_argument cs⟩ (fun b w₁ b' w₂ hj hr => ?_) hh
  obtain ⟨sec, memory, p⟩ := b
  obtain ⟨pre, post, rfl, hcircle, rfl, hrests⟩ := hj
  obtain ⟨c, post, rfl, hfind, ht, hrests'⟩ :=
    lsStep_returned (fun d hd => hall d (List.mem_append_right pre hd)) hrests hr
  have hroot := (hstay pre c post w₁ _ w₂ rfl hcircle hfind).resolve_left ht
  rw [hroot] at hfind ht
  exact ⟨pre ++ [c], post, by simp, .next hcircle ht hfind, hroot, hrests'⟩

theorem circles_head (hall : ∀ c ∈ cs, Component c) (h : Circles drive info w pre w')
    (hcs : cs = pre ++ post) : ∃ memory p, Rests memory p post ∧
      Heads (handled (perform drive)) (lsStep info)
        (info.firstRootDirSecNum, argument (along cs []), start) w
        (info.firstRootDirSecNum, memory, p) w' := by
  induction h generalizing post with
  | start =>
    obtain rfl : cs = post := hcs
    exact ⟨_, _, rests_argument cs, .start⟩
  | @next pre w₁ c w₂ _ hne hfind ih =>
    rw [List.append_assoc] at hcs
    obtain ⟨memory, p, ⟨i, u, v, rfl, hm, hi⟩, hh⟩ := ih hcs
    have hc : Component c := hall c (hcs ▸ by simp)
    have hz : 0 ∉ along post [] := zero_not_mem_along (fun d hd => hall d (hcs ▸ by simp [hd]))
    obtain ⟨memory', j, u', hm', hj, hstep⟩ := lsStep_enters hc hz hm hi hfind hne
    exact ⟨memory', .inside j, ⟨j, u', v, rfl, hm', hj⟩, .next hh hstep⟩

/-- Without sectors in a cluster no way out of the root directory is left. -/
theorem stays_of_divides (hall : ∀ c ∈ cs, Component c) (hinfo : fatInfo drive.image = some info)
    (hb : info.bytsPerSec ≠ 0) (hs : info.secPerClus = 0)
    (hd : ∀ d, Divides drive (along cs []) w d → d ≠ 0) : StaysAtRoot drive info w cs := by
  intro pre c post w₁ t w₂ hcs hcircle hfind
  by_contra hne
  obtain ⟨ht, hroot⟩ := not_or.mp hne
  obtain ⟨memory, p, ⟨i, u, v, rfl, hm, hi⟩, hh⟩ := circles_head hall hcircle hcs
  have hc : Component c := hall c (hcs ▸ by simp)
  have hz : 0 ∉ along post [] := zero_not_mem_along (fun d hd => hall d (hcs ▸ by simp [hd]))
  obtain ⟨memory', j, u', hm', hj, hstep⟩ := lsStep_enters hc hz hm hi hfind ht
  have hvisits : Visits drive info (along cs []) w t (along post []) w₂ :=
    ⟨memory', j, .next hh hstep, string_inside hm' hj hz⟩
  exact hd _ (.iterator hinfo hb hvisits hroot) (hs ▸ rfl)

/-- No divisor is zero exactly when, if the header can be read, its sectors are not empty,
and neither are its clusters or the path does not lead out of the root directory. -/
theorem divisors_iff (hz : 0 ∉ path) (hp : path.getLast? = some pathDelim) :
    (∀ d, Divides drive path w d → d ≠ 0) ↔ ∀ info, fatInfo drive.image = some info →
      info.bytsPerSec ≠ 0 ∧
        (info.secPerClus ≠ 0 ∨ StaysAtRoot drive info w (components path)) := by
  obtain ⟨hall, halong⟩ := components_plain (.inr hp) hz
  generalize components path = cs at hall halong ⊢
  subst halong
  constructor
  · intro hd info hinfo
    have hb : info.bytsPerSec ≠ 0 := fun h => hd _ (.header hinfo) (h ▸ rfl)
    refine ⟨hb, ?_⟩
    by_cases hs : info.secPerClus = 0
    · exact .inr (stays_of_divides hall hinfo hb hs hd)
    · exact .inl hs
  · intro hcond d hd
    cases hd with
    | header hinfo => exact fun h => (hcond _ hinfo).1 (UInt16.toNat_inj.mp h)
    | @iterator info sec rest w' hinfo _ hvisits hsec =>
      obtain hs | hstay := (hcond _ hinfo).2
      · exact fun h => hs (UInt8.toNat_inj.mp h)
      · obtain ⟨memory, i, hh, -⟩ := hvisits
        obtain ⟨_, _, _, _, hroot, _⟩ := heads_circle hall hstay hh
        exact absurd hroot hsec
    | listed _ hb | searched _ hb => exact fun h => hb (UInt16.toNat_inj.mp h)

theorem readFatInfo_faults (h : fatInfo drive.image = some info) (hb : info.bytsPerSec = 0) :
    Runs (handled (perform drive)) readFatInfo w (.halted .fault) w := by
  simp only [fatInfo, Option.bind_eq_bind, Option.bind_eq_some_iff, Option.some.injEq] at h
  obtain ⟨bytsPerSec, h₁, secPerClus, h₂, rsvdSecCnt, h₃, numFATs, h₄, rootEntCnt, h₅, fatsz16, h₆,
    fatSize, h₇, rfl⟩ := h
  have r₁ : Reads drive (read16 11) (some bytsPerSec) := h₁ ▸ read16_reads 11
  have r₂ : Reads drive (read8 13) (some secPerClus) := h₂ ▸ read8_reads 13
  have r₃ : Reads drive (read16 14) (some rsvdSecCnt) := h₃ ▸ read16_reads 14
  have r₄ : Reads drive (read8 16) (some numFATs) := h₄ ▸ read8_reads 16
  have r₅ : Reads drive (read16 17) (some rootEntCnt) := h₅ ▸ read16_reads 17
  have r₆ : Reads drive (read16 22) (some fatsz16) := h₆ ▸ read16_reads 22
  have r₇ : Reads drive (readFatSize fatsz16) (some fatSize) := h₇ ▸ readFatSize_reads fatsz16
  refine runs_next (r₁ w) (runs_next (r₂ w) (runs_next (r₃ w) (runs_next (r₄ w)
    (runs_next (r₅ w) (runs_next (r₆ w) (runs_next (r₇ w) ?_))))))
  rw [if_pos hb]
  exact runs_halt

theorem visits_faults {sec : UInt32} {rest : Bytes} (hs : info.secPerClus = 0)
    (hsec : sec ≠ info.firstRootDirSecNum) (hv : Visits drive info path w sec rest w') :
    Runs (handled (perform drive)) (ls info info.firstRootDirSecNum (argument path) start) w
      (.halted .fault) w' := by
  obtain ⟨memory, i, hh, hstring⟩ := hv
  have hnone : newDirEntryIterator info sec = none := by
    rw [newDirEntryIterator, if_neg hsec, if_pos hs]
  have hstep : Runs (handled (perform drive)) (lsStep info (sec, memory, .inside i)) w'
      (.halted .fault) w' := by
    have hhalt {α : Type} : (access (none : Option α)) = .halt .fault := rfl
    simp only [lsStep, hstring, access, Program.pure_eq, Program.done_bind]
    split
    · simp only [list, hnone, hhalt, Program.halt_bind]
      exact runs_halt
    · cases memory.strchr (.inside i) pathDelim with
      | none => exact runs_halt
      | some subPath =>
        simp only [Program.done_bind]
        cases memory.store 0 subPath with
        | none => exact runs_halt
        | some memory =>
          simp only [Program.done_bind]
          cases memory.string (.inside i) with
          | none => exact runs_halt
          | some name =>
            simp only [Program.done_bind, findPathSecNum, hnone, hhalt, Program.halt_bind]
            exact runs_halt
  exact .halted (heads_iterates hh (.halted hstep))

theorem fatInfo_word (h : fatInfo drive.image = some info) :
    word drive.image 11 = some info.bytsPerSec := by
  simp only [fatInfo, Option.bind_eq_bind, Option.bind_eq_some_iff, Option.some.injEq] at h
  obtain ⟨bytsPerSec, hb, _, -, _, -, _, -, _, -, _, -, _, -, rfl⟩ := h
  exact hb

/-- A zero divisor is the end of the program. -/
theorem zero_faults {prog : Bytes} {d : Nat} (h : Divides drive path { w with pos := 0 } d)
    (hd : d = 0) :
    ∃ w', Runs (handled (perform drive)) (main [prog, path]) w (.halted .fault) w' := by
  have hopen {w' : World} (hr : Runs (handled (perform drive)) (do
      let info ← readFatInfo
      ls info info.firstRootDirSecNum (argument path) start) { w with pos := 0 }
      (.halted .fault) w') :
      Runs (handled (perform drive)) (main [prog, path]) w (.halted .fault) w' := runs_call rfl hr
  cases h with
  | header hinfo =>
    refine ⟨{ w with pos := 0 }, hopen ((runs_bind _ _ _ _ _).mpr (.halted ?_))⟩
    exact readFatInfo_faults hinfo (UInt16.toNat_inj.mp hd)
  | @iterator info sec rest w' hinfo hb hvisits hsec =>
    have hread : Reads drive readFatInfo (some info) := by
      rw [← hinfo]
      refine readFatInfo_reads (fun hz => hb ?_)
      exact Option.some.inj ((fatInfo_word hinfo).symm.trans hz)
    exact ⟨_, hopen (runs_next (hread _) (visits_faults (UInt8.toNat_inj.mp hd) hsec hvisits))⟩
  | listed _ hb | searched _ hb => exact absurd (UInt16.toNat_inj.mp hd) hb

/-- An image that holds nothing but zeros. -/
def blankDrive : Drive := ⟨List.replicate 64 0, fun _ => Buffer.zeros nameBytes, Buffer.zeros⟩

theorem divisors_iff_blank :
    (∀ d, Divides blankDrive (ascii "A/") ⟨0, 0, []⟩ d → d ≠ 0) ↔
      ∀ info, fatInfo blankDrive.image = some info → info.bytsPerSec ≠ 0 ∧
        (info.secPerClus ≠ 0 ∨
          StaysAtRoot blankDrive info ⟨0, 0, []⟩ (components (ascii "A/"))) :=
  divisors_iff (by decide) (by decide)

/-- The header is used as it is. -/
theorem zero_divisor : ¬ ∀ (drive : Drive) (path : Bytes) (w : World), 0 ∉ path →
    path.getLast? = some pathDelim → ∀ d, Divides drive path w d → d ≠ 0 := by
  intro hall
  have hinfo : fatInfo blankDrive.image = some ⟨0, 0, 0, 0, 0, 0, 0, 0, 0⟩ := by decide
  exact hall blankDrive (ascii "A/") ⟨0, 0, []⟩ (by decide) (by decide) _ (.header hinfo) rfl

end Ti3.Fat.Divisors
