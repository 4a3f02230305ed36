import Ti3.Library.Rules

namespace Ti3.Library.Calls

open Interaction Rules

variable {Call : Type} {Answer : Call → Type} {Exit : Type} {α β γ σ : Type}

/-- Whatever is answered, the program makes only such calls. -/
def OnlyCalls (P : Call → Prop) : {α : Type} → Program Call Answer Exit α → Prop
  | _, .done _ | _, .halt _ => True
  | _, .call c k => P c ∧ ∀ a, OnlyCalls P (k a)
  | _, .loop body _ k => (∀ b, OnlyCalls P (body b)) ∧ ∀ c, OnlyCalls P (k c)

variable {P : Call → Prop} {env : Environment Call Answer σ}

@[simp] theorem onlyCalls_call {c : Call} {k : Answer c → Program Call Answer Exit α} :
    OnlyCalls P (.call c k) ↔ P c ∧ ∀ a, OnlyCalls P (k a) := Iff.rfl

theorem onlyCalls_bind {p : Program Call Answer Exit α} {f : α → Program Call Answer Exit β}
    (hp : OnlyCalls P p) (hf : ∀ a, OnlyCalls P (f a)) : OnlyCalls P (p >>= f) := by
  induction p with
  | done a => exact hf a
  | halt e => trivial
  | call c k ih => exact ⟨hp.1, fun a => ih a (hp.2 a) hf⟩
  | loop body b k _ ih => exact ⟨hp.1, fun c => ih c (hp.2 c) hf⟩

/-- What every such call preserves holds however the program ends. -/
theorem onlyCalls_guarantees {I : σ → Prop} {p : Program Call Answer Exit α} {w : σ}
    (hI : ∀ w c a w', P c → env w c a w' → I w → I w') (hp : OnlyCalls P p) (h : I w) :
    Guarantees env p w (fun _ => I) := by
  induction p generalizing w with
  | done a => exact guarantees_done.mpr ⟨h, h⟩
  | halt e => exact guarantees_halt.mpr ⟨h, h⟩
  | call c k ih =>
    exact guarantees_call.mpr ⟨h, fun a w₁ ha => ih a (hp.2 a) (hI w c a w₁ hp.1 ha h)⟩
  | loop body b k ihb ihk =>
    refine guarantees_loop (fun _ => I) h (fun b w h => ?_)
    refine guarantees_mono (ihb b (hp.1 b) h) (fun o w' h => ?_)
    cases o with
    | cut | halted _ => exact h
    | returned x =>
      cases x with
      | inl b' => exact h
      | inr c => exact ihk c (hp.2 c) h

/-- Whatever is answered, the program ends early only in such ways. -/
def OnlyHalts (P : Exit → Prop) : {α : Type} → Program Call Answer Exit α → Prop
  | _, .done _ => True
  | _, .halt e => P e
  | _, .call _ k => ∀ a, OnlyHalts P (k a)
  | _, .loop body _ k => (∀ b, OnlyHalts P (body b)) ∧ ∀ c, OnlyHalts P (k c)

theorem onlyHalts_bind {P : Exit → Prop} {p : Program Call Answer Exit α}
    {f : α → Program Call Answer Exit β} (hp : OnlyHalts P p) (hf : ∀ a, OnlyHalts P (f a)) :
    OnlyHalts P (p >>= f) := by
  induction p with
  | done a => exact hf a
  | halt e => exact hp
  | call c k ih => exact fun a => ih a (hp a) hf
  | loop body b k _ ih => exact ⟨hp.1, fun c => ih c (hp.2 c) hf⟩

theorem onlyHalts_guarantees {P : Exit → Prop} {p : Program Call Answer Exit α} {w : σ}
    (hp : OnlyHalts P p) : Guarantees env p w (fun o _ => ∀ e, o = .halted e → P e) := by
  induction p generalizing w with
  | done a => exact guarantees_done.mpr ⟨nofun, nofun⟩
  | halt e =>
    refine guarantees_halt.mpr ⟨nofun, fun e' he => ?_⟩
    cases he
    exact hp
  | call c k ih => exact guarantees_call.mpr ⟨nofun, fun a w₁ _ => ih a (hp a)⟩
  | loop body b k ihb ihk =>
    refine guarantees_loop (fun _ _ => True) trivial (fun b w _ => ?_)
    refine guarantees_mono (ihb b (hp.1 b)) (fun o w' h => ?_)
    cases o with
    | cut => exact nofun
    | halted e =>
      intro e' he
      cases he
      exact h e rfl
    | returned x =>
      cases x with
      | inl b' => trivial
      | inr c => exact ihk c (hp.2 c)

end Ti3.Library.Calls
