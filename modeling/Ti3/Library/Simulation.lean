import Ti3.Library.Rules

namespace Ti3.Library.Simulation

open Interaction

variable {Call : Type} {Answer : Call → Type} {Exit : Type} {α α' β β' γ γ' σ : Type}
variable {env : Environment Call Answer σ} {R : α → α' → Prop} {S : β → β' → Prop}

/-- The same end, up to a relation between the results. -/
inductive Matches (R : α → α' → Prop) : Outcome Exit α → Outcome Exit α' → Prop
  | cut : Matches R .cut .cut
  | halted {e} : Matches R (.halted e) (.halted e)
  | returned {a a'} : R a a' → Matches R (.returned a) (.returned a')

/-- For every run of one program the other has a run that leaves the
environment in the same state. -/
def Mimics (env : Environment Call Answer σ) (R : α → α' → Prop) (p : Program Call Answer Exit α)
    (p' : Program Call Answer Exit α') : Prop :=
  ∀ w o w', Runs env p w o w' → ∃ o', Matches R o o' ∧ Runs env p' w o' w'

theorem mimics_done {a : α} {a' : α'} (h : R a a') :
    Mimics env R (.done a : Program Call Answer Exit α) (.done a') := by
  rintro w o w' ⟨rfl | rfl, rfl⟩
  · exact ⟨_, .cut, runs_cut _ _⟩
  · exact ⟨_, .returned h, runs_done⟩

theorem mimics_halt {e : Exit} : Mimics env R (.halt e) (.halt e) := by
  rintro w o w' ⟨rfl | rfl, rfl⟩
  · exact ⟨_, .cut, runs_cut _ _⟩
  · exact ⟨_, .halted, runs_halt⟩

/-- Calls may differ as long as the environment treats them alike. -/
theorem mimics_call {c c' : Call} {k : Answer c → Program Call Answer Exit α}
    {k' : Answer c' → Program Call Answer Exit α'} (f : Answer c → Answer c')
    (hc : ∀ w a w₁, env w c a w₁ → env w c' (f a) w₁) (hk : ∀ a, Mimics env R (k a) (k' (f a))) :
    Mimics env R (.call c k) (.call c' k') := by
  rintro w o w' (⟨rfl, rfl⟩ | ⟨a, w₁, ha, hr⟩)
  · exact ⟨_, .cut, runs_cut _ _⟩
  · obtain ⟨o', hm, hr'⟩ := hk a w₁ o w' hr
    exact ⟨o', hm, runs_call (hc w a w₁ ha) hr'⟩

theorem mimics_bind {p : Program Call Answer Exit β} {p' : Program Call Answer Exit β'}
    {f : β → Program Call Answer Exit α} {f' : β' → Program Call Answer Exit α'}
    (hp : Mimics env S p p') (hf : ∀ b b', S b b' → Mimics env R (f b) (f' b')) :
    Mimics env R (p >>= f) (p' >>= f') := by
  intro w o w' hr
  cases (runs_bind p f w w' o).mp hr with
  | cut hr =>
    obtain ⟨_, hm, hr'⟩ := hp _ _ _ hr
    cases hm
    exact ⟨_, .cut, (runs_bind p' f' _ _ _).mpr (.cut hr')⟩
  | halted hr =>
    obtain ⟨_, hm, hr'⟩ := hp _ _ _ hr
    cases hm
    exact ⟨_, .halted, (runs_bind p' f' _ _ _).mpr (.halted hr')⟩
  | next hr hk =>
    obtain ⟨_, hm, hr'⟩ := hp _ _ _ hr
    cases hm with
    | returned hb =>
      obtain ⟨o', hm, hk'⟩ := hf _ _ hb _ _ _ hk
      exact ⟨o', hm, (runs_bind p' f' _ _ _).mpr (.next hr' hk')⟩

theorem mimics_loop {body : β → Program Call Answer Exit (β ⊕ γ)}
    {body' : β' → Program Call Answer Exit (β' ⊕ γ')} {k : γ → Program Call Answer Exit α}
    {k' : γ' → Program Call Answer Exit α'} {b : β} {b' : β'} (T : γ → γ' → Prop) (hb : S b b')
    (hs : ∀ b b', S b b' → Mimics env (Sum.LiftRel S T) (body b) (body' b'))
    (hk : ∀ c c', T c c' → Mimics env R (k c) (k' c')) :
    Mimics env R (.loop body b k) (.loop body' b' k') := by
  have hi : ∀ {b w o w'}, Iterates (fun b => Runs env (body b)) b w o w' → ∀ b', S b b' →
      ∃ o', Matches T o o' ∧ Iterates (fun b => Runs env (body' b)) b' w o' w' := by
    intro b w o w' hr
    induction hr with
    | cut hr =>
      intro b' hb
      obtain ⟨_, hm, hr'⟩ := hs _ _ hb _ _ _ hr
      cases hm
      exact ⟨_, .cut, .cut hr'⟩
    | halted hr =>
      intro b' hb
      obtain ⟨_, hm, hr'⟩ := hs _ _ hb _ _ _ hr
      cases hm
      exact ⟨_, .halted, .halted hr'⟩
    | stop hr =>
      intro b' hb
      obtain ⟨_, hm, hr'⟩ := hs _ _ hb _ _ _ hr
      cases hm with
      | returned hc =>
        cases hc with
        | inr hc => exact ⟨_, .returned hc, .stop hr'⟩
    | next hr _ ih =>
      intro b' hb
      obtain ⟨_, hm, hr'⟩ := hs _ _ hb _ _ _ hr
      cases hm with
      | returned hc =>
        cases hc with
        | inl hb' =>
          obtain ⟨o', hm, hi⟩ := ih _ hb'
          exact ⟨o', hm, .next hr' hi⟩
  intro w o w' hr
  cases hr with
  | cut hr =>
    obtain ⟨_, hm, hr'⟩ := hi hr b' hb
    cases hm
    exact ⟨_, .cut, .cut hr'⟩
  | halted hr =>
    obtain ⟨_, hm, hr'⟩ := hi hr b' hb
    cases hm
    exact ⟨_, .halted, .halted hr'⟩
  | next hr hn =>
    obtain ⟨_, hm, hr'⟩ := hi hr b' hb
    cases hm with
    | returned hc =>
      obtain ⟨o', hm, hn'⟩ := hk _ _ hc _ _ _ hn
      exact ⟨o', hm, .next hr' hn'⟩

end Ti3.Library.Simulation
