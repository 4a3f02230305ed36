import Ti3.Library.Determinism

namespace Ti3.Library.Execution

open Interaction Determinism

deriving instance DecidableEq for Outcome

variable {Call : Type} {Answer : Call → Type} {Exit : Type} {α β γ σ : Type}

/-- At most so many turns of a loop whose body can be carried out. -/
def turns (run : β → σ → Option (Outcome Exit (β ⊕ γ) × σ)) :
    Nat → β → σ → Option (Outcome Exit γ × σ)
  | 0, _, _ => none
  | n + 1, b, w => match run b w with
    | some (.returned (.inl b'), w') => turns run n b' w'
    | some (.returned (.inr c), w') => some (.returned c, w')
    | some (.halted e, w') => some (.halted e, w')
    | some (.cut, _) | none => none

/-- A program carried out to its end against a function for an environment, if
no loop takes more turns than allowed. -/
def execute (f : σ → (c : Call) → Answer c × σ) (limit : Nat) :
    {α : Type} → Program Call Answer Exit α → σ → Option (Outcome Exit α × σ)
  | _, .done a, w => some (.returned a, w)
  | _, .halt e, w => some (.halted e, w)
  | _, .call c k, w => execute f limit (k (f w c).1) (f w c).2
  | _, .loop body b k, w =>
    match turns (fun b => execute f limit (body b)) limit b w with
    | some (.returned c, w') => execute f limit (k c) w'
    | some (.halted e, w') => some (.halted e, w')
    | some (.cut, _) | none => none

theorem turns_iterates {R : β → σ → Outcome Exit (β ⊕ γ) → σ → Prop}
    {run : β → σ → Option (Outcome Exit (β ⊕ γ) × σ)}
    (hr : ∀ b w o w', run b w = some (o, w') → R b w o w') {n : Nat} {b : β} {w w' : σ}
    {o : Outcome Exit γ} (h : turns run n b w = some (o, w')) : Iterates R b w o w' := by
  induction n generalizing b w with
  | zero => cases h
  | succ n ih =>
    rw [turns] at h
    split at h
    · next hb => exact .next (hr _ _ _ _ hb) (ih h)
    · next hb =>
      cases h
      exact .stop (hr _ _ _ _ hb)
    · next hb =>
      cases h
      exact .halted (hr _ _ _ _ hb)
    · cases h
    · cases h

theorem execute_runs {f : σ → (c : Call) → Answer c × σ} {limit : Nat}
    {p : Program Call Answer Exit α} {w w' : σ} {o : Outcome Exit α}
    (h : execute f limit p w = some (o, w')) : Runs (handled f) p w o w' := by
  induction p generalizing w w' with
  | done a =>
    cases h
    exact runs_done
  | halt e =>
    cases h
    exact runs_halt
  | call c k ih => exact runs_call rfl (ih _ h)
  | loop body b k ihb ihk =>
    have hbody : ∀ b w o w', execute f limit (body b) w = some (o, w') →
        Runs (handled f) (body b) w o w' := fun b _ _ _ hb => ihb b hb
    rw [execute] at h
    split at h
    · next ht => exact .next (turns_iterates hbody ht) (ihk _ h)
    · next ht =>
      cases h
      exact .halted (turns_iterates hbody ht)
    · cases h
    · cases h

/-- A run against one environment is one against every environment that allows
its answers. -/
theorem runs_allowed {env env' : Environment Call Answer σ}
    (he : ∀ w c a w', env w c a w' → env' w c a w') {p : Program Call Answer Exit α} {w w' : σ}
    {o : Outcome Exit α} (h : Runs env p w o w') : Runs env' p w o w' := by
  induction p generalizing w w' with
  | done a | halt e => exact h
  | call c k ih =>
    obtain ⟨rfl, rfl⟩ | ⟨a, w₁, ha, hk⟩ := h
    · exact runs_cut _ _
    · exact runs_call (he _ _ _ _ ha) (ih a hk)
  | loop body b k ihb ihk =>
    have hi : ∀ {b w o w'}, Iterates (fun b => Runs env (body b)) b w o w' →
        Iterates (fun b => Runs env' (body b)) b w o w' := by
      intro b w o w' hr
      induction hr with
      | cut hr => exact .cut (ihb _ hr)
      | halted hr => exact .halted (ihb _ hr)
      | stop hr => exact .stop (ihb _ hr)
      | next hr _ ih => exact .next (ihb _ hr) ih
    cases h with
    | cut h => exact .cut (hi h)
    | halted h => exact .halted (hi h)
    | next h hk => exact .next (hi h) (ihk _ hk)

/-- What a computation finds out about how a program ends holds of one of its runs. -/
theorem runs_of_execute {env : Environment Call Answer σ} {f : σ → (c : Call) → Answer c × σ}
    (hf : ∀ w c, env w c (f w c).1 (f w c).2) (limit : Nat) (p : Program Call Answer Exit α)
    (w : σ) (Q : Outcome Exit α → σ → Prop) [∀ o w, Decidable (Q o w)]
    (h : (execute f limit p w).any (fun r => decide (Q r.1 r.2)) = true) :
    ∃ o w', Runs env p w o w' ∧ Q o w' := by
  obtain ⟨⟨o, w'⟩, hr, hq⟩ := (Option.any_eq_true _ _).mp h
  refine ⟨o, w', runs_allowed ?_ (execute_runs hr), of_decide_eq_true hq⟩
  intro w c a w₁ ha
  have hw := hf w c
  rw [ha] at hw
  exact hw

end Ti3.Library.Execution
