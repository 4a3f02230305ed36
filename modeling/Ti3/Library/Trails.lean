import Ti3.Library.History

namespace Ti3.Library.Trails

open Interaction History

variable {Call : Type} {Answer : Call → Type} {Exit : Type} {β γ σ : Type}

/-- A run of a loop with the values that its body starts from, one after another. -/
inductive Trail (R : β → σ → Outcome Exit (β ⊕ γ) → σ → Prop) :
    β → σ → List β → Outcome Exit γ → σ → Prop
  | cut {b w w'} : R b w .cut w' → Trail R b w [b] .cut w'
  | halted {b w e w'} : R b w (.halted e) w' → Trail R b w [b] (.halted e) w'
  | stop {b w c w'} : R b w (.returned (.inr c)) w' → Trail R b w [b] (.returned c) w'
  | next {b w b' w₁ bs o w'} : R b w (.returned (.inl b')) w₁ → Trail R b' w₁ bs o w' →
      Trail R b w (b :: bs) o w'

variable {R : β → σ → Outcome Exit (β ⊕ γ) → σ → Prop} {b : β} {w w' : σ} {o : Outcome Exit γ}

/-- Every run of a loop leaves a trail. -/
theorem iterates_trail : Iterates R b w o w' ↔ ∃ bs, Trail R b w bs o w' := by
  constructor
  · intro h
    induction h with
    | cut h => exact ⟨_, .cut h⟩
    | halted h => exact ⟨_, .halted h⟩
    | stop h => exact ⟨_, .stop h⟩
    | next h _ ih =>
      obtain ⟨bs, ht⟩ := ih
      exact ⟨_, .next h ht⟩
  · rintro ⟨bs, h⟩
    induction h with
    | cut h => exact .cut h
    | halted h => exact .halted h
    | stop h => exact .stop h
    | next h _ ih => exact .next h ih

theorem trail_suffix {allowed : List (Event Call Answer) → (c : Call) → Answer c → Prop}
    {body : β → Program Call Answer Exit (β ⊕ γ)} {bs : List β}
    {h h' : List (Event Call Answer)}
    (ht : Trail (fun b => Runs (recorded allowed) (body b)) b h bs o h') : h <:+ h' :=
  iterates_suffix (fun b _ _ _ => runs_suffix (body b)) (iterates_trail.mpr ⟨bs, ht⟩)

end Ti3.Library.Trails
