import Ti3.Library.Concurrency

namespace Ti3.Library.Embedding

open Interaction

variable {Call Call' : Type} {Answer : Call → Type} {Answer' : Call' → Type} {Exit Exit' : Type}
variable {α β γ σ : Type} {f : Call → Call'} {g : ∀ c, Answer' (f c) → Answer c} {e : Exit → Exit'}

/-- A program among programs that make other calls as well. -/
def embed (f : Call → Call') (g : ∀ c, Answer' (f c) → Answer c) (e : Exit → Exit') :
    {α : Type} → Program Call Answer Exit α → Program Call' Answer' Exit' α
  | _, .done a => .done a
  | _, .halt x => .halt (e x)
  | _, .call c k => .call (f c) (fun a => embed f g e (k (g c a)))
  | _, .loop body b k => .loop (fun b => embed f g e (body b)) b (fun c => embed f g e (k c))

/-- What is left of an environment when only the calls of one program count. -/
def restricted (f : Call → Call') (g : ∀ c, Answer' (f c) → Answer c)
    (env : Environment Call' Answer' σ) : Environment Call Answer σ :=
  fun w c a w' => ∃ a', env w (f c) a' w' ∧ g c a' = a

/-- The end of a program among the others. -/
def outcome (e : Exit → Exit') : Outcome Exit α → Outcome Exit' α
  | .cut => .cut
  | .halted x => .halted (e x)
  | .returned a => .returned a

variable {env : Environment Call' Answer' σ}

theorem iterates_embed {R : β → σ → Outcome Exit (β ⊕ γ) → σ → Prop}
    {R' : β → σ → Outcome Exit' (β ⊕ γ) → σ → Prop}
    (hR : ∀ b w o' w', R' b w o' w' → ∃ o, o' = outcome e o ∧ R b w o w') {b : β} {w w' : σ}
    {o' : Outcome Exit' γ} (h : Iterates R' b w o' w') :
    ∃ o, o' = outcome e o ∧ Iterates R b w o w' := by
  induction h with
  | cut h =>
    obtain ⟨o, ho, hr⟩ := hR _ _ _ _ h
    cases o with
    | cut => exact ⟨.cut, rfl, .cut hr⟩
    | halted | returned => cases ho
  | halted h =>
    obtain ⟨o, ho, hr⟩ := hR _ _ _ _ h
    cases o with
    | halted x =>
      cases ho
      exact ⟨.halted x, rfl, .halted hr⟩
    | cut | returned => cases ho
  | stop h =>
    obtain ⟨o, ho, hr⟩ := hR _ _ _ _ h
    cases o with
    | returned a =>
      cases ho
      exact ⟨.returned _, rfl, .stop hr⟩
    | cut | halted => cases ho
  | next h _ ih =>
    obtain ⟨o, ho, hr⟩ := hR _ _ _ _ h
    obtain ⟨o', ho', hi⟩ := ih
    cases o with
    | returned a =>
      cases ho
      exact ⟨o', ho', .next hr hi⟩
    | cut | halted => cases ho

/-- Among the others a program runs as it does alone. -/
theorem runs_embed {p : Program Call Answer Exit α} {w w' : σ} {o' : Outcome Exit' α}
    (h : Runs env (embed f g e p) w o' w') :
    ∃ o, o' = outcome e o ∧ Runs (restricted f g env) p w o w' := by
  induction p generalizing w w' with
  | done a =>
    obtain ⟨rfl | rfl, rfl⟩ := h
    · exact ⟨.cut, rfl, runs_cut _ _⟩
    · exact ⟨.returned a, rfl, runs_done⟩
  | halt x =>
    obtain ⟨rfl | rfl, rfl⟩ := h
    · exact ⟨.cut, rfl, runs_cut _ _⟩
    · exact ⟨.halted x, rfl, runs_halt⟩
  | call c k ih =>
    obtain ⟨rfl, rfl⟩ | ⟨a, w₁, ha, hr⟩ := h
    · exact ⟨.cut, rfl, runs_cut _ _⟩
    · obtain ⟨o, ho, hr⟩ := ih _ hr
      exact ⟨o, ho, runs_call ⟨a, ha, rfl⟩ hr⟩
  | loop body b k ihb ihk =>
    have hbody : ∀ b w o' w', Runs env (embed f g e (body b)) w o' w' →
        ∃ o, o' = outcome e o ∧ Runs (restricted f g env) (body b) w o w' :=
      fun b _ _ _ hr => ihb b hr
    cases h with
    | cut h =>
      obtain ⟨o, ho, hi⟩ := iterates_embed hbody h
      cases o with
      | cut => exact ⟨.cut, rfl, .cut hi⟩
      | halted | returned => cases ho
    | halted h =>
      obtain ⟨o, ho, hi⟩ := iterates_embed hbody h
      cases o with
      | halted x =>
        cases ho
        exact ⟨.halted x, rfl, .halted hi⟩
      | cut | returned => cases ho
    | next h hk =>
      obtain ⟨o, ho, hi⟩ := iterates_embed hbody h
      cases o with
      | returned c =>
        cases ho
        obtain ⟨o', ho', hr⟩ := ihk _ hk
        exact ⟨o', ho', .next hi hr⟩
      | cut | halted => cases ho

section view

variable {τ : Type} {env : Environment Call Answer σ} {own : Environment Call Answer τ}
variable {view : σ → τ} {I : σ → Prop}

theorem iterates_view {R : β → σ → Outcome Exit (β ⊕ γ) → σ → Prop}
    {S : β → τ → Outcome Exit (β ⊕ γ) → τ → Prop}
    (hR : ∀ b w o w', I w → R b w o w' → I w' ∧ S b (view w) o (view w')) {b : β} {w w' : σ}
    {o : Outcome Exit γ} (hw : I w) (h : Iterates R b w o w') :
    I w' ∧ Iterates S b (view w) o (view w') := by
  induction h with
  | cut h => exact ⟨(hR _ _ _ _ hw h).1, .cut (hR _ _ _ _ hw h).2⟩
  | halted h => exact ⟨(hR _ _ _ _ hw h).1, .halted (hR _ _ _ _ hw h).2⟩
  | stop h => exact ⟨(hR _ _ _ _ hw h).1, .stop (hR _ _ _ _ hw h).2⟩
  | next h _ ih =>
    obtain ⟨hw₁, hs⟩ := hR _ _ _ _ hw h
    obtain ⟨hw', hi⟩ := ih hw₁
    exact ⟨hw', .next hs hi⟩

/-- What can be seen of a run is a run against what can be seen of the environment. -/
theorem runs_view (hstep : ∀ w c a w', I w → env w c a w' → I w' ∧ own (view w) c a (view w'))
    {p : Program Call Answer Exit α} {w w' : σ} {o : Outcome Exit α} (hw : I w)
    (h : Runs env p w o w') : I w' ∧ Runs own p (view w) o (view w') := by
  induction p generalizing w w' with
  | done a | halt e =>
    obtain ⟨ho, rfl⟩ := h
    exact ⟨hw, ho, rfl⟩
  | call c k ih =>
    obtain ⟨rfl, rfl⟩ | ⟨a, w₁, ha, hr⟩ := h
    · exact ⟨hw, runs_cut _ _⟩
    · obtain ⟨hw₁, hs⟩ := hstep _ _ _ _ hw ha
      obtain ⟨hw', hr⟩ := ih a hw₁ hr
      exact ⟨hw', runs_call hs hr⟩
  | loop body b k ihb ihk =>
    have hbody : ∀ b w o w', I w → Runs env (body b) w o w' →
        I w' ∧ Runs own (body b) (view w) o (view w') := fun b _ _ _ hw hr => ihb b hw hr
    cases h with
    | cut h => exact ⟨(iterates_view hbody hw h).1, .cut (iterates_view hbody hw h).2⟩
    | halted h => exact ⟨(iterates_view hbody hw h).1, .halted (iterates_view hbody hw h).2⟩
    | next h hk =>
      obtain ⟨hw₁, hi⟩ := iterates_view hbody hw h
      obtain ⟨hw', hr⟩ := ihk _ hw₁ hk
      exact ⟨hw', .next hi hr⟩

end view

end Ti3.Library.Embedding
