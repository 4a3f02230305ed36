import Ti3.Library.Rules

namespace Ti3.Library.Determinism

open Interaction Rules

variable {Call : Type} {Answer : Call → Type} {Exit : Type} {α β γ σ : Type}

/-- An environment given by a function. -/
def handled (f : σ → (c : Call) → Answer c × σ) : Environment Call Answer σ :=
  fun w c a w₁ => f w c = (a, w₁)

variable {f : σ → (c : Call) → Answer c × σ}

@[simp] theorem runs_handled_call {c : Call} {k : Answer c → Program Call Answer Exit α} {w w' : σ}
    {a : α} : Runs (handled f) (.call c k) w (.returned a) w' ↔
      Runs (handled f) (k (f w c).1) (f w c).2 (.returned a) w' := by
  constructor
  · rintro (⟨h, _⟩ | ⟨b, w₁, hb, h⟩)
    · cases h
    · rw [hb]
      exact h
  · intro h
    exact runs_call rfl h

theorem runs_handled_answer {c : Call} {k : Answer c → Program Call Answer Exit α} {w w₁ w' : σ}
    {a : α} {b : Answer c} (hb : f w c = (b, w₁)) :
    Runs (handled f) (.call c k) w (.returned a) w' ↔
      Runs (handled f) (k b) w₁ (.returned a) w' := by
  rw [runs_handled_call, hb]

@[simp] theorem runs_handled_done {a b : α} {w w' : σ} :
    Runs (handled f) (.done b : Program Call Answer Exit α) w (.returned a) w' ↔
      a = b ∧ w' = w := by
  simp [Runs]

theorem guarantees_handled_call {c : Call} {k : Answer c → Program Call Answer Exit α} {w : σ}
    {P : Outcome Exit α → σ → Prop} : Guarantees (handled f) (.call c k) w P ↔
      P .cut w ∧ Guarantees (handled f) (k (f w c).1) (f w c).2 P := by
  rw [guarantees_call]
  constructor
  · rintro ⟨hc, h⟩
    exact ⟨hc, h _ _ rfl⟩
  · rintro ⟨hc, h⟩
    refine ⟨hc, fun a w₁ ha => ?_⟩
    rw [ha] at h
    exact h

def Deterministic (R : σ → Outcome Exit α → σ → Prop) : Prop :=
  ∀ ⦃w o w' o' w''⦄, R w o w' → R w o' w'' → o ≠ .cut → o' ≠ .cut → o = o' ∧ w' = w''

theorem iterates_deterministic {R : β → σ → Outcome Exit (β ⊕ γ) → σ → Prop}
    (hR : ∀ b, Deterministic (R b)) (b : β) : Deterministic (Iterates R b) := by
  intro w o w' o' w'' h h' ho ho'
  induction h with
  | cut _ => exact absurd rfl ho
  | halted h =>
    cases h' with
    | cut _ => exact absurd rfl ho'
    | halted h' =>
      obtain ⟨he, hw⟩ := hR _ h h' (by simp) (by simp)
      cases he
      exact ⟨rfl, hw⟩
    | stop h' | next h' _ => cases (hR _ h h' (by simp) (by simp)).1
  | stop h =>
    cases h' with
    | cut _ => exact absurd rfl ho'
    | stop h' =>
      obtain ⟨he, hw⟩ := hR _ h h' (by simp) (by simp)
      cases he
      exact ⟨rfl, hw⟩
    | halted h' | next h' _ => cases (hR _ h h' (by simp) (by simp)).1
  | next h _ ih =>
    cases h' with
    | cut _ => exact absurd rfl ho'
    | halted h' | stop h' => cases (hR _ h h' (by simp) (by simp)).1
    | next h' hi =>
      obtain ⟨he, hw⟩ := hR _ h h' (by simp) (by simp)
      cases he
      cases hw
      exact ih hi ho

theorem sequenced_deterministic {R : σ → Outcome Exit α → σ → Prop}
    {S : α → σ → Outcome Exit β → σ → Prop} (hR : Deterministic R)
    (hS : ∀ a, Deterministic (S a)) : Deterministic (Sequenced R S) := by
  intro w o w' o' w'' h h' ho ho'
  cases h with
  | cut _ => exact absurd rfl ho
  | halted h =>
    cases h' with
    | cut _ => exact absurd rfl ho'
    | halted h' =>
      obtain ⟨he, hw⟩ := hR h h' (by simp) (by simp)
      cases he
      exact ⟨rfl, hw⟩
    | next h' _ => cases (hR h h' (by simp) (by simp)).1
  | next h hs =>
    cases h' with
    | cut _ => exact absurd rfl ho'
    | halted h' => cases (hR h h' (by simp) (by simp)).1
    | next h' hs' =>
      obtain ⟨he, hw⟩ := hR h h' (by simp) (by simp)
      cases he
      cases hw
      exact hS _ hs hs' ho ho'

/-- Against a function for an environment a program has one complete run at most. -/
theorem runs_deterministic (f : σ → (c : Call) → Answer c × σ) (p : Program Call Answer Exit α) :
    Deterministic (Runs (handled f) p) := by
  induction p with
  | done a =>
    rintro w o w' o' w'' ⟨h, rfl⟩ ⟨h', rfl⟩ ho ho'
    exact ⟨(h.resolve_left ho).trans (h'.resolve_left ho').symm, rfl⟩
  | halt e =>
    rintro w o w' o' w'' ⟨h, rfl⟩ ⟨h', rfl⟩ ho ho'
    exact ⟨(h.resolve_left ho).trans (h'.resolve_left ho').symm, rfl⟩
  | call c k ih =>
    rintro w o w' o' w'' (⟨h, _⟩ | ⟨a, w₁, ha, h⟩) (⟨h', _⟩ | ⟨a', w₁', ha', h'⟩) ho ho'
    · exact absurd h ho
    · exact absurd h ho
    · exact absurd h' ho'
    · obtain ⟨rfl, rfl⟩ := Prod.mk.inj (ha.symm.trans ha')
      exact ih a h h' ho ho'
  | loop body b k ihb ihk => exact sequenced_deterministic (iterates_deterministic ihb b) ihk

/-- The program returns, and every complete run of it ends in `Q`. -/
def Yields (env : Environment Call Answer σ) (p : Program Call Answer Exit α) (w : σ)
    (Q : α → σ → Prop) : Prop :=
  (∃ a w', Runs env p w (.returned a) w') ∧
    Guarantees env p w (fun o w' => o = .cut ∨ ∃ a, o = .returned a ∧ Q a w')

theorem yields_of_runs {f : σ → (c : Call) → Answer c × σ} {p : Program Call Answer Exit α}
    {w w' : σ} {a : α} {Q : α → σ → Prop} (h : Runs (handled f) p w (.returned a) w')
    (hq : Q a w') : Yields (handled f) p w Q := by
  refine ⟨⟨a, w', h⟩, fun o w'' hr => ?_⟩
  by_cases ho : o = .cut
  · exact .inl ho
  · obtain ⟨rfl, rfl⟩ := runs_deterministic f p h hr (by simp) ho
    exact .inr ⟨a, rfl, hq⟩

theorem yields_returned {env : Environment Call Answer σ} {p : Program Call Answer Exit α}
    {w w' : σ} {a : α} {Q : α → σ → Prop} (h : Yields env p w Q)
    (hr : Runs env p w (.returned a) w') : Q a w' := by
  obtain h | ⟨b, h, hq⟩ := h.2 _ _ hr
  · cases h
  · cases h
    exact hq

end Ti3.Library.Determinism
