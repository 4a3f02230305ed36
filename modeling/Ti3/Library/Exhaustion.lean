import Ti3.Library.Cursor

namespace Ti3.Library.Exhaustion

open Cursor

variable {S E X : Type} {examine : S → Verdict S E X} {s s' : S} {i : Nat}

/-- Calls that find the end, one after another. -/
inductive Stops (examine : S → Verdict S E X) (s : S) : S → Prop
  | start : Stops examine s s
  | next {s₁ s₂} : Stops examine s s₁ → Finds examine s₁ (.stop s₂) → Stops examine s s₂

/-- The next call finds the end, and so does every later one. -/
def Exhausted (examine : S → Verdict S E X) (s : S) : Prop :=
  ∀ s₁, Stops examine s s₁ → ∃ s₂, Finds examine s₁ (.stop s₂)

theorem stops_cons {s₁ s₂ : S} (hf : Finds examine s (.stop s₁)) (h : Stops examine s₁ s₂) :
    Stops examine s s₂ := by
  induction h with
  | start => exact .next .start hf
  | next _ hf' ih => exact .next ih hf'

theorem exhausted_stop (h : Exhausted examine s) :
    ∃ s₁, Finds examine s (.stop s₁) ∧ Exhausted examine s₁ := by
  obtain ⟨s₁, hf⟩ := h s .start
  exact ⟨s₁, hf, fun s₂ hs => h s₂ (stops_cons hf hs)⟩

/-- A cursor that is kept where it finds the end. -/
theorem exhausted_of_invariant {I : S → Prop}
    (hI : ∀ s, I s → ∃ s', Finds examine s (.stop s') ∧ I s') (h : I s) :
    Exhausted examine s := by
  have hall : ∀ s₁, Stops examine s s₁ → I s₁ := by
    intro s₁ hs
    induction hs with
    | start => exact h
    | next _ hf ih =>
      obtain ⟨s', hf', hi⟩ := hI _ ih
      cases finds_unique hf hf'
      exact hi
  intro s₁ hs
  obtain ⟨s₂, hf, -⟩ := hI s₁ (hall s₁ hs)
  exact ⟨s₂, hf⟩

/-- The places that a cursor comes to while it finds nothing but the end. It does
not get past other ones. -/
def course (examine : S → Verdict S E X) (s : S) : Nat → S
  | 0 => s
  | i + 1 => match examine (course examine s i) with
    | .skip s' | .stop s' => s'
    | .give _ _ | .fail _ => course examine s i

/-- The place is passed over, or is an end. -/
def Passes (examine : S → Verdict S E X) (s : S) : Prop :=
  ∃ s', examine s = .skip s' ∨ examine s = .stop s'

def Halts (examine : S → Verdict S E X) (s : S) : Prop := ∃ s', examine s = .stop s'

theorem course_skip (h : examine (course examine s i) = .skip s') :
    course examine s (i + 1) = s' := by
  simp only [course, h]

theorem course_stop (h : examine (course examine s i) = .stop s') :
    course examine s (i + 1) = s' := by
  simp only [course, h]

/-- An end is found from each place in front of it. -/
theorem finds_course {j : Nat} (hp : ∀ i, Passes examine (course examine s i)) (hij : i ≤ j)
    (hj : Halts examine (course examine s j)) :
    ∃ k, Finds examine (course examine s i) (.stop (course examine s k)) := by
  induction hij using Nat.decreasingInduction with
  | self =>
    obtain ⟨s', hs⟩ := hj
    exact ⟨j + 1, course_stop hs ▸ .stop hs⟩
  | of_succ i _ ih =>
    obtain ⟨s', hs | hs⟩ := hp i
    · obtain ⟨k, hf⟩ := ih
      rw [course_skip hs] at hf
      exact ⟨k, .skip hs hf⟩
    · exact ⟨i + 1, course_stop hs ▸ .stop hs⟩

theorem halts_of_finds {v : Verdict S E X} (h : Finds examine (course examine s i) v)
    (hv : v = .stop s') : ∃ j, i ≤ j ∧ Halts examine (course examine s j) := by
  generalize hc : course examine s i = c at h
  induction h generalizing i with
  | skip hs _ ih =>
    subst hc
    obtain ⟨j, hj, hh⟩ := ih hv (course_skip hs)
    exact ⟨j, Nat.le_of_succ_le hj, hh⟩
  | stop hs =>
    subst hc
    exact ⟨i, Nat.le_refl i, _, hs⟩
  | give | fail => cases hv

/-- The end is found from each place of the course, and then again and again. -/
theorem course_exhausted (h : Exhausted examine s) :
    ∃ s', Finds examine (course examine s i) (.stop s') ∧ Exhausted examine s' := by
  induction i with
  | zero => exact exhausted_stop h
  | succ i ih =>
    obtain ⟨s', hf, he⟩ := ih
    cases hf with
    | skip hs hf => exact ⟨s', course_skip hs ▸ hf, he⟩
    | stop hs =>
      rw [course_stop hs]
      exact exhausted_stop he

/-- Every call finds the end exactly when the cursor comes to nothing but ends and
what it passes over, and to an end over and over. -/
theorem exhausted_iff : Exhausted examine s ↔ (∀ i, Passes examine (course examine s i)) ∧
    ∀ i, ∃ j, i ≤ j ∧ Halts examine (course examine s j) := by
  constructor
  · intro h
    refine ⟨fun i => ?_, fun i => ?_⟩
    · obtain ⟨s', hf, -⟩ := course_exhausted (i := i) h
      cases hf with
      | skip hs _ => exact ⟨_, .inl hs⟩
      | stop hs => exact ⟨_, .inr hs⟩
    · obtain ⟨s', hf, -⟩ := course_exhausted (i := i) h
      exact halts_of_finds hf rfl
  · rintro ⟨hp, hh⟩
    refine exhausted_of_invariant (I := fun s' => ∃ i, s' = course examine s i) ?_ ⟨0, rfl⟩
    rintro _ ⟨i, rfl⟩
    obtain ⟨j, hij, hj⟩ := hh i
    obtain ⟨k, hf⟩ := finds_course hp hij hj
    exact ⟨_, hf, k, rfl⟩

end Ti3.Library.Exhaustion
