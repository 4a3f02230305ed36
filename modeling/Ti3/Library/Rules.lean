import Ti3.Library.Interaction

namespace Ti3.Library.Rules

open Interaction

variable {Call : Type} {Answer : Call → Type} {Exit : Type} {α β γ σ : Type}
variable {env : Environment Call Answer σ}

/-- What every run of a program leaves behind, the interrupted ones included. -/
def Guarantees (env : Environment Call Answer σ) (p : Program Call Answer Exit α) (w : σ)
    (P : Outcome Exit α → σ → Prop) : Prop := ∀ o w', Runs env p w o w' → P o w'

/-- Use `P` for runs that end early and `Q` for the ones that hand on a result. -/
def follow (P : Outcome Exit β → σ → Prop) (Q : α → σ → Prop) : Outcome Exit α → σ → Prop
  | .cut => P .cut
  | .halted e => P (.halted e)
  | .returned a => Q a

/-- What is asked of results only is true of runs that end early. -/
theorem ends_early {A : Prop} {Q : α → Prop} (h : A) :
    (A ∧ ∀ a, (.cut : Outcome Exit α) = .returned a → Q a) ∧
      ∀ e, A ∧ ∀ a, (.halted e : Outcome Exit α) = .returned a → Q a :=
  ⟨⟨h, fun _ ha => by cases ha⟩, fun _ => ⟨h, fun _ ha => by cases ha⟩⟩

theorem guarantees_mono {p : Program Call Answer Exit α} {w : σ} {P P' : Outcome Exit α → σ → Prop}
    (h : Guarantees env p w P) (hp : ∀ o w', P o w' → P' o w') : Guarantees env p w P' :=
  fun o w' hr => hp o w' (h o w' hr)

@[simp] theorem guarantees_done {a : α} {w : σ} {P : Outcome Exit α → σ → Prop} :
    Guarantees env (.done a) w P ↔ P .cut w ∧ P (.returned a) w := by
  constructor
  · intro h
    exact ⟨h _ _ (runs_cut _ _), h _ _ runs_done⟩
  · rintro ⟨hc, hr⟩ o w' ⟨rfl | rfl, rfl⟩
    · exact hc
    · exact hr

@[simp] theorem guarantees_halt {e : Exit} {w : σ} {P : Outcome Exit α → σ → Prop} :
    Guarantees env (.halt e) w P ↔ P .cut w ∧ P (.halted e) w := by
  constructor
  · intro h
    exact ⟨h _ _ (runs_cut _ _), h _ _ runs_halt⟩
  · rintro ⟨hc, hr⟩ o w' ⟨rfl | rfl, rfl⟩
    · exact hc
    · exact hr

@[simp] theorem guarantees_call {c : Call} {k : Answer c → Program Call Answer Exit α} {w : σ}
    {P : Outcome Exit α → σ → Prop} : Guarantees env (.call c k) w P ↔
      P .cut w ∧ ∀ a w₁, env w c a w₁ → Guarantees env (k a) w₁ P := by
  constructor
  · intro h
    exact ⟨h _ _ (runs_cut _ _), fun a w₁ ha o w' hr => h o w' (runs_call ha hr)⟩
  · rintro ⟨hc, hk⟩ o w' (⟨rfl, rfl⟩ | ⟨a, w₁, ha, hr⟩)
    · exact hc
    · exact hk a w₁ ha o w' hr

theorem guarantees_bind {p : Program Call Answer Exit α} {f : α → Program Call Answer Exit β}
    {w : σ} {P : Outcome Exit β → σ → Prop}
    (h : Guarantees env p w (follow P (fun a w' => Guarantees env (f a) w' P))) :
    Guarantees env (p >>= f) w P := by
  intro o w' hr
  cases (runs_bind p f w w' o).mp hr with
  | cut hp => exact h _ _ hp
  | halted hp => exact h _ _ hp
  | next hp hf => exact h _ _ hp _ _ hf

/-- A check that may end the program. -/
theorem guarantees_unless {failed : Prop} [Decidable failed] {e : Exit}
    {k : Program Call Answer Exit α} {w : σ} {P : Outcome Exit α → σ → Prop}
    (hP : P .cut w ∧ P (.halted e) w) (hk : ¬ failed → Guarantees env k w P) :
    Guarantees env ((if failed then .halt e else .done ()) >>= fun (_ : Unit) => k) w P := by
  by_cases hf : failed
  · rw [if_pos hf]
    exact guarantees_halt.mpr hP
  · rw [if_neg hf]
    exact hk hf

/-- The invariant `J` holds whenever the body starts. -/
theorem guarantees_loop {body : β → Program Call Answer Exit (β ⊕ γ)} {b : β}
    {k : γ → Program Call Answer Exit α} {w : σ} {P : Outcome Exit α → σ → Prop}
    (J : β → σ → Prop) (h₀ : J b w)
    (hJ : ∀ b w, J b w → Guarantees env (body b) w
      (follow P (Sum.elim J (fun c w' => Guarantees env (k c) w' P)))) :
    Guarantees env (.loop body b k) w P := by
  have hi : ∀ b w (o : Outcome Exit γ) w', Iterates (fun b => Runs env (body b)) b w o w' →
      J b w → follow P (fun c w' => Guarantees env (k c) w' P) o w' := by
    intro b w o w' hr
    induction hr with
    | cut h => exact fun hj => hJ _ _ hj _ _ h
    | halted h => exact fun hj => hJ _ _ hj _ _ h
    | stop h => exact fun hj => hJ _ _ hj _ _ h
    | next h _ ih => exact fun hj => ih (hJ _ _ hj _ _ h)
  rintro o w' (h | h | ⟨h, hk⟩)
  · exact hi _ _ _ _ h h₀
  · exact hi _ _ _ _ h h₀
  · exact hi _ _ _ _ h h₀ _ _ hk

theorem follow_follow (P : Outcome Exit γ → σ → Prop) (Q : β → σ → Prop) (R : α → σ → Prop) :
    follow (follow P Q) R = follow P R := by
  funext o
  cases o with
  | cut | halted | returned => rfl

theorem follow_mono {p : Program Call Answer Exit α} {w : σ} {P : Outcome Exit β → σ → Prop}
    {Q Q' : α → σ → Prop} (h : Guarantees env p w (follow P Q)) (hQ : ∀ a w, Q a w → Q' a w) :
    Guarantees env p w (follow P Q') := by
  refine guarantees_mono h (fun o w' ho => ?_)
  cases o with
  | cut | halted => exact ho
  | returned a => exact hQ a w' ho

theorem follow_bind {p : Program Call Answer Exit α} {f : α → Program Call Answer Exit β} {w : σ}
    {P : Outcome Exit γ → σ → Prop} {Q : β → σ → Prop}
    (h : Guarantees env p w (follow P (fun a w' => Guarantees env (f a) w' (follow P Q)))) :
    Guarantees env (p >>= f) w (follow P Q) := by
  refine guarantees_bind ?_
  rw [follow_follow]
  exact h

/-- The body keeps `J`, and when it leaves the loop `Q` is all that is needed. -/
theorem guarantees_rounds {body : β → Program Call Answer Exit (β ⊕ γ)} {b : β}
    {k : γ → Program Call Answer Exit α} {w : σ} {P : Outcome Exit α → σ → Prop}
    (J : β → σ → Prop) {Q : γ → σ → Prop} (h₀ : J b w)
    (hJ : ∀ b w, J b w → Guarantees env (body b) w (follow P (Sum.elim J Q)))
    (hQ : ∀ c w, Q c w → Guarantees env (k c) w P) : Guarantees env (.loop body b k) w P := by
  refine guarantees_loop J h₀ (fun b w h => follow_mono (hJ b w h) (fun next w' hnext => ?_))
  cases next with
  | inl b => exact hnext
  | inr c => exact hQ c w' hnext

/-- The states in which a loop reaches the start of its body. -/
inductive Heads (env : Environment Call Answer σ) (body : β → Program Call Answer Exit (β ⊕ γ))
    (b : β) (w : σ) : β → σ → Prop
  | start : Heads env body b w b w
  | next {b₁ w₁ b₂ w₂} : Heads env body b w b₁ w₁ →
      Runs env (body b₁) w₁ (.returned (.inl b₂)) w₂ → Heads env body b w b₂ w₂

theorem heads_invariant {body : β → Program Call Answer Exit (β ⊕ γ)} {b b' : β} {w w' : σ}
    (J : β → σ → Prop) (h₀ : J b w)
    (hJ : ∀ b w b' w', J b w → Runs env (body b) w (.returned (.inl b')) w' → J b' w')
    (h : Heads env body b w b' w') : J b' w' := by
  induction h with
  | start => exact h₀
  | next _ hr ih => exact hJ _ _ _ _ ih hr

theorem heads_iterates {body : β → Program Call Answer Exit (β ⊕ γ)} {b b' : β} {w w' w'' : σ}
    {o : Outcome Exit γ} (hh : Heads env body b w b' w')
    (hi : Iterates (fun b => Runs env (body b)) b' w' o w'') :
    Iterates (fun b => Runs env (body b)) b w o w'' := by
  induction hh with
  | start => exact hi
  | next _ hr ih => exact ih (.next hr hi)

/-- A loop may be cut wherever it starts its body. -/
theorem heads_runs {body : β → Program Call Answer Exit (β ⊕ γ)} {b b' : β} {w w' : σ}
    {k : γ → Program Call Answer Exit α} (hh : Heads env body b w b' w') :
    Runs env (.loop body b k) w .cut w' :=
  .cut (heads_iterates hh (.cut (runs_cut (body b') w')))

/-- Equal steps `n` times over: a loop whose heads are known can be entered at
the last of them. -/
theorem iterates_steps {R : β → σ → Outcome Exit (β ⊕ γ) → σ → Prop} (b : Nat → β) (w : Nat → σ)
    (n : Nat) (hs : ∀ i < n, R (b i) (w i) (.returned (.inl (b (i + 1)))) (w (i + 1)))
    {o : Outcome Exit γ} {w' : σ} (h : Iterates R (b n) (w n) o w') :
    Iterates R (b 0) (w 0) o w' := by
  induction n with
  | zero => exact h
  | succ n ih => exact ih (fun i hi => hs i (by omega)) (.next (hs n (by omega)) h)

/-- A loop whose body keeps `I` and lowers a measure until it leaves in `Q`. -/
theorem iterates_total {R : β → σ → Outcome Exit (β ⊕ γ) → σ → Prop} {I : β → σ → Prop}
    {Q : γ → σ → Prop} (measure : β → σ → Nat)
    (hs : ∀ b w, I b w →
      (∃ b' w', R b w (.returned (.inl b')) w' ∧ I b' w' ∧ measure b' w' < measure b w) ∨
        ∃ c w', R b w (.returned (.inr c)) w' ∧ Q c w')
    {b : β} {w : σ} (h : I b w) : ∃ c w', Iterates R b w (.returned c) w' ∧ Q c w' := by
  induction hn : measure b w using Nat.strongRecOn generalizing b w with
  | _ n ih =>
    obtain ⟨b', w', hr, hi, hlt⟩ | ⟨c, w', hr, hq⟩ := hs b w h
    · obtain ⟨c, w'', hit, hq⟩ := ih _ (hn ▸ hlt) hi rfl
      exact ⟨c, w'', .next hr hit, hq⟩
    · exact ⟨c, w', .stop hr, hq⟩

end Ti3.Library.Rules
