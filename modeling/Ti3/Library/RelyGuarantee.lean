import Ti3.Library.Concurrency

namespace Ti3.Library.RelyGuarantee

open Interaction Concurrency Relation

variable {Call : Type} {Answer : Call → Type} {Exit : Type} {α β γ σ ι : Type}

/-- As long as the others only take steps in `R`, the program takes steps in `G` only;
when it ends early it has reached `E`, and otherwise `Q`. -/
def Obeys (env : Environment Call Answer σ) (R G : σ → σ → Prop) (E : Exit → σ → Prop) :
    {α : Type} → Program Call Answer Exit α → (α → σ → Prop) → σ → Prop
  | _, .done a, Q, w => ∃ w₀, R w₀ w ∧ Q a w₀
  | _, .halt e, _, w => ∃ w₀, R w₀ w ∧ E e w₀
  | _, .call c k, Q, w => ∀ w₁, R w w₁ → ∀ a w', env w₁ c a w' →
      G w₁ w' ∧ Obeys env R G E (k a) Q w'
  | _, .loop body b k, Q, w => ∃ (J : _ → σ → Prop) (T : _ → σ → Prop) (w₀ : σ), R w₀ w ∧ J b w₀ ∧
      (∀ b w, J b w → Obeys env R G E (body b) (Sum.elim J T) w) ∧
        ∀ c w, T c w → Obeys env R G E (k c) Q w

section

variable {env : Environment Call Answer σ} {R G : σ → σ → Prop} {E : Exit → σ → Prop}
variable {Q : α → σ → Prop} {w w' : σ}

/-- The others may take their steps first. -/
theorem obeys_stable [IsTrans σ R] {p : Program Call Answer Exit α} (h : Obeys env R G E p Q w)
    (hw : R w w') : Obeys env R G E p Q w' := by
  cases p with
  | done a | halt e =>
    obtain ⟨w₀, h₀, hq⟩ := h
    exact ⟨w₀, IsTrans.trans _ _ _ h₀ hw, hq⟩
  | call c k => exact fun w₁ h₁ => h w₁ (IsTrans.trans _ _ _ hw h₁)
  | loop body b k =>
    obtain ⟨J, T, w₀, h₀, hrest⟩ := h
    exact ⟨J, T, w₀, IsTrans.trans _ _ _ h₀ hw, hrest⟩

theorem obeys_done [Std.Refl R] {a : α} (h : Q a w) :
    Obeys env R G E (.done a : Program Call Answer Exit α) Q w := ⟨w, refl w, h⟩

theorem obeys_halt [Std.Refl R] {e : Exit} (h : E e w) :
    Obeys env R G E (.halt e : Program Call Answer Exit α) Q w := ⟨w, refl w, h⟩

theorem obeys_mono {p : Program Call Answer Exit α} {P : α → σ → Prop}
    (h : Obeys env R G E p P w) (hq : ∀ a w, P a w → Q a w) : Obeys env R G E p Q w := by
  induction p generalizing w with
  | done a =>
    obtain ⟨w₀, h₀, hp⟩ := h
    exact ⟨w₀, h₀, hq a w₀ hp⟩
  | halt e => exact h
  | call c k ih =>
    intro w₁ h₁ a w' ha
    obtain ⟨hg, hk⟩ := h w₁ h₁ a w' ha
    exact ⟨hg, ih a hk hq⟩
  | loop body b k _ ihk =>
    obtain ⟨J, T, w₀, h₀, hj, hbody, hk⟩ := h
    exact ⟨J, T, w₀, h₀, hj, hbody, fun c w ht => ihk c (hk c w ht) hq⟩

theorem obeys_bind [IsTrans σ R] {p : Program Call Answer Exit β}
    {f : β → Program Call Answer Exit α} {P : β → σ → Prop} (h : Obeys env R G E p P w)
    (hf : ∀ b w, P b w → Obeys env R G E (f b) Q w) : Obeys env R G E (p >>= f) Q w := by
  induction p generalizing w with
  | done b =>
    obtain ⟨w₀, h₀, hp⟩ := h
    exact obeys_stable (hf b w₀ hp) h₀
  | halt e => exact h
  | call c k ih =>
    intro w₁ h₁ a w' ha
    obtain ⟨hg, hk⟩ := h w₁ h₁ a w' ha
    exact ⟨hg, ih a hk hf⟩
  | loop body b k _ ihk =>
    obtain ⟨J, T, w₀, h₀, hj, hbody, hk⟩ := h
    exact ⟨J, T, w₀, h₀, hj, hbody, fun c w ht => ihk c (hk c w ht) hf⟩

theorem obeys_loop [Std.Refl R] {body : β → Program Call Answer Exit (β ⊕ γ)} {b : β}
    {k : γ → Program Call Answer Exit α} (J : β → σ → Prop) (T : γ → σ → Prop) (h : J b w)
    (hJ : ∀ b w, J b w → Obeys env R G E (body b) (Sum.elim J T) w)
    (hk : ∀ c w, T c w → Obeys env R G E (k c) Q w) :
    Obeys env R G E (.loop body b k) Q w := ⟨J, T, w, refl w, h, hJ, hk⟩

/-- A step of the program is in `G`, and what is left of it obeys too. -/
theorem small_obeys [Std.Refl R] [IsTrans σ R] {p p' : Program Call Answer Exit α}
    (h : Obeys env R G E p Q w) (hs : Small env p w p' w') :
    (w' = w ∨ G w w') ∧ Obeys env R G E p' Q w' := by
  cases hs with
  | call ha =>
    obtain ⟨hg, hk⟩ := h w (refl w) _ _ ha
    exact ⟨.inr hg, hk⟩
  | loop =>
    obtain ⟨J, T, w₀, h₀, hj, hbody, hk⟩ := h
    refine ⟨.inl rfl, obeys_bind (obeys_stable (hbody _ _ hj) h₀) (fun r w hr => ?_)⟩
    cases r with
    | inl b' => exact ⟨J, T, w, refl w, hr, hbody, hk⟩
    | inr c => exact hk c w hr

end

/-- Any steps of the other programs. -/
def others (G : ι → σ → σ → Prop) (i : ι) : σ → σ → Prop :=
  ReflTransGen (fun w w' => ∃ j, j ≠ i ∧ G j w w')

variable {G : ι → σ → σ → Prop} {i : ι}

instance : Std.Refl (others G i) := ⟨fun _ => .refl⟩

instance : IsTrans σ (others G i) := ⟨fun _ _ _ => ReflTransGen.trans⟩

/-- What no step of another program destroys is still there after all their steps. -/
theorem others_stable {F : σ → Prop} (hF : ∀ j w w', j ≠ i → G j w w' → F w → F w') {w w' : σ}
    (h : others G i w w') (hw : F w) : F w' := by
  induction h with
  | refl => exact hw
  | tail _ hs ih =>
    obtain ⟨j, hj, hg⟩ := hs
    exact hF j _ _ hj hg ih

/-- A call that is made where only the own steps matter. -/
theorem obeys_call {env : Environment Call Answer σ} {E : Exit → σ → Prop}
    {Q : α → σ → Prop} {c : Call} {k : Answer c → Program Call Answer Exit α} {w : σ}
    (P : σ → Prop) (h : P w) (hP : ∀ j w w', j ≠ i → G j w w' → P w → P w')
    (hc : ∀ w₁, P w₁ → ∀ a w', env w₁ c a w' → G i w₁ w' ∧
      Obeys env (others G i) (G i) E (k a) Q w') :
    Obeys env (others G i) (G i) E (.call c k) Q w :=
  fun w₁ h₁ => hc w₁ (others_stable hP h₁ h)

variable [DecidableEq ι] {env : ι → Environment Call Answer σ} {E : ι → Exit → σ → Prop}
variable {Q : ι → α → σ → Prop} {C C' : Configuration Call Answer Exit α σ ι}

/-- Every program obeys among the others. -/
def AllObey (env : ι → Environment Call Answer σ) (G : ι → σ → σ → Prop)
    (E : ι → Exit → σ → Prop) (Q : ι → α → σ → Prop)
    (C : Configuration Call Answer Exit α σ ι) : Prop :=
  ∀ i, Obeys (env i) (others G i) (G i) (E i) (C.programs i) (Q i) C.world

theorem step_obeys (h : AllObey env G E Q C) (hs : Step env C C') :
    AllObey env G E Q C' ∧ (C'.world = C.world ∨ ∃ i, G i C.world C'.world) := by
  obtain ⟨j, hs⟩ := hs
  obtain ⟨hw, hp⟩ := small_obeys (h j) hs
  refine ⟨fun i => ?_, hw.imp_right (fun hg => ⟨j, hg⟩)⟩
  by_cases hij : i = j
  · subst hij
    simpa only [Function.update_self] using hp
  · simp only [Function.update_of_ne hij]
    obtain rfl | hg := hw
    · exact h i
    · exact obeys_stable (h i) (.single ⟨j, Ne.symm hij, hg⟩)

/-- Programs that obey one by one obey together: in every interleaving all steps are the
ones they guarantee. -/
theorem reachable_obeys (h : AllObey env G E Q C) (hr : Reachable env C C') :
    AllObey env G E Q C' ∧ ReflTransGen (fun w w' => ∃ i, G i w w') C.world C'.world := by
  induction hr with
  | refl => exact ⟨h, .refl⟩
  | tail _ hs ih =>
    obtain ⟨hall, hw⟩ := step_obeys ih.1 hs
    refine ⟨hall, ?_⟩
    obtain he | hg := hw
    · exact he ▸ ih.2
    · exact ih.2.tail hg

/-- An invariant of all guaranteed steps holds in every interleaving. -/
theorem reachable_invariant (h : AllObey env G E Q C) (hr : Reachable env C C') {I : σ → Prop}
    (hI : ∀ i w w', G i w w' → I w → I w') (h₀ : I C.world) : I C'.world := by
  have hsteps := (reachable_obeys h hr).2
  generalize C'.world = w at hsteps
  induction hsteps with
  | refl => exact h₀
  | tail _ hs ih =>
    obtain ⟨i, hg⟩ := hs
    exact hI i _ _ hg ih

theorem returned_obeys {env : Environment Call Answer σ} {R G : σ → σ → Prop}
    {E : Exit → σ → Prop} {Q : α → σ → Prop} {p : Program Call Answer Exit α} {a : α} {w : σ}
    (h : Obeys env R G E p Q w) (ha : returned p = some a) : ∃ w₀, R w₀ w ∧ Q a w₀ := by
  cases p with
  | done b =>
    cases ha
    exact h
  | call | halt | loop => cases ha

theorem halted_obeys {env : Environment Call Answer σ} {R G : σ → σ → Prop}
    {E : Exit → σ → Prop} {Q : α → σ → Prop} {p : Program Call Answer Exit α} {e : Exit} {w : σ}
    (h : Obeys env R G E p Q w) (he : halted p = some e) : ∃ w₀, R w₀ w ∧ E e w₀ := by
  cases p with
  | halt e' =>
    cases he
    exact h
  | call | done | loop => cases he

end Ti3.Library.RelyGuarantee
