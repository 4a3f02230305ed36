import Ti3.Library.Concurrency

namespace Ti3.Library.Disturbance

open Interaction Rules Concurrency

variable {Call : Type} {Answer : Call → Type} {Exit : Type} {α β γ σ ι : Type}
variable {R : σ → σ → Prop} {env : Environment Call Answer σ}

/-- An environment in which others may change the state before each call. -/
def disturbed (R : σ → σ → Prop) (env : Environment Call Answer σ) : Environment Call Answer σ :=
  fun w c a w' => ∃ w₁, R w w₁ ∧ env w₁ c a w'

/-- A run that starts with a disturbance: either a call comes after it, which takes
it in, or nothing has been done yet. -/
def Deferred (R : σ → σ → Prop) (S : σ → Outcome Exit α → σ → Prop) : Prop :=
  ∀ ⦃w w₁ o w'⦄, R w w₁ → S w₁ o w' → S w o w' ∨ (w' = w₁ ∧ S w o w)

theorem deferred_iterates {S : β → σ → Outcome Exit (β ⊕ γ) → σ → Prop}
    (hS : ∀ b, Deferred R (S b)) (b : β) : Deferred R (Iterates S b) := by
  intro w w₁ o w' hw h
  induction h generalizing w with
  | cut h =>
    obtain h' | ⟨rfl, h'⟩ := hS _ hw h
    · exact .inl (.cut h')
    · exact .inr ⟨rfl, .cut h'⟩
  | halted h =>
    obtain h' | ⟨rfl, h'⟩ := hS _ hw h
    · exact .inl (.halted h')
    · exact .inr ⟨rfl, .halted h'⟩
  | stop h =>
    obtain h' | ⟨rfl, h'⟩ := hS _ hw h
    · exact .inl (.stop h')
    · exact .inr ⟨rfl, .stop h'⟩
  | next h hi ih =>
    obtain h' | ⟨rfl, h'⟩ := hS _ hw h
    · exact .inl (.next h' hi)
    · obtain hi' | ⟨rfl, hi'⟩ := ih hw
      · exact .inl (.next h' hi')
      · exact .inr ⟨rfl, .next h' hi'⟩

theorem deferred_sequenced {S : σ → Outcome Exit α → σ → Prop}
    {T : α → σ → Outcome Exit β → σ → Prop} (hS : Deferred R S) (hT : ∀ a, Deferred R (T a)) :
    Deferred R (Sequenced S T) := by
  intro w w₁ o w' hw h
  cases h with
  | cut h =>
    obtain h' | ⟨rfl, h'⟩ := hS hw h
    · exact .inl (.cut h')
    · exact .inr ⟨rfl, .cut h'⟩
  | halted h =>
    obtain h' | ⟨rfl, h'⟩ := hS hw h
    · exact .inl (.halted h')
    · exact .inr ⟨rfl, .halted h'⟩
  | next h ht =>
    obtain h' | ⟨rfl, h'⟩ := hS hw h
    · exact .inl (.next h' ht)
    · obtain ht' | ⟨rfl, ht'⟩ := hT _ hw ht
      · exact .inl (.next h' ht')
      · exact .inr ⟨rfl, .next h' ht'⟩

/-- Two disturbances in a row are one. -/
theorem deferred_runs [IsTrans σ R] (p : Program Call Answer Exit α) :
    Deferred R (Runs (disturbed R env) p) := by
  induction p with
  | done a | halt e =>
    rintro w w₁ o w' hw ⟨ho, rfl⟩
    exact .inr ⟨rfl, ho, rfl⟩
  | call c k ih =>
    rintro w w₁ o w' hw (⟨rfl, rfl⟩ | ⟨a, w₂, ⟨w₃, hw₃, ha⟩, hk⟩)
    · exact .inr ⟨rfl, runs_cut _ _⟩
    · exact .inl (runs_call ⟨w₃, IsTrans.trans _ _ _ hw hw₃, ha⟩ hk)
  | loop body b k ihb ihk =>
    exact deferred_sequenced (deferred_iterates ihb b) ihk

variable {p p' : Program Call Answer Exit α} {w w' : σ}

theorem small_undisturbed [Std.Refl R] (h : Small env p w p' w') :
    Small (disturbed R env) p w p' w' := by
  cases h with
  | call ha => exact .call ⟨w, refl w, ha⟩
  | loop => exact .loop

theorem small_disturbs [Std.Refl R] (hR : ∀ w c a w', env w c a w' → R w w')
    (h : Small env p w p' w') : R w w' := by
  cases h with
  | call ha => exact hR _ _ _ _ ha
  | loop => exact refl w

variable [DecidableEq ι] {envs : ι → Environment Call Answer σ} {i : ι}
variable {C C' : Configuration Call Answer Exit α σ ι} [Std.Refl R] [IsTrans σ R]

/-- In every interleaving a program does what it does alone when it is disturbed
by the steps of the others. -/
theorem reachable_disturbed (hR : ∀ j w c a w', j ≠ i → envs j w c a w' → R w w')
    (h : Reachable envs C C') :
    ∃ w, Runs (disturbed R (envs i)) (C.programs i) C.world .cut w ∧ R w C'.world := by
  induction h using Relation.ReflTransGen.head_induction_on with
  | refl => exact ⟨_, runs_cut _ _, refl _⟩
  | head hs _ ih =>
    obtain ⟨w, hr, hw⟩ := ih
    obtain ⟨j, hs⟩ := hs
    by_cases hj : j = i
    · subst hj
      simp only [Function.update_self] at hr
      exact ⟨w, small_runs (small_undisturbed hs) hr, hw⟩
    · simp only [Function.update_of_ne (Ne.symm hj)] at hr
      have hd := small_disturbs (fun w c a w' => hR j w c a w' hj) hs
      obtain hr' | ⟨rfl, hr'⟩ := deferred_runs _ hd hr
      · exact ⟨w, hr', hw⟩
      · exact ⟨_, hr', IsTrans.trans _ _ _ hd hw⟩

/-- What a program guarantees among disturbances holds in every interleaving, if
disturbances do not spoil it. -/
theorem reachable_guarantees (hR : ∀ j w c a w', j ≠ i → envs j w c a w' → R w w')
    {P : Outcome Exit α → σ → Prop} (hP : ∀ w w', R w w' → P .cut w → P .cut w')
    (hg : Guarantees (disturbed R (envs i)) (C.programs i) C.world P)
    (h : Reachable envs C C') : P .cut C'.world := by
  obtain ⟨w, hr, hw⟩ := reachable_disturbed hR h
  exact hP _ _ hw (hg _ _ hr)

end Ti3.Library.Disturbance
