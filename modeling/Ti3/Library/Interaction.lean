import Mathlib.Logic.Function.Basic

namespace Ti3.Library.Interaction

/-- A program that calls an environment it does not control. A loop runs its
body until the body answers on the right. -/
inductive Program (Call : Type) (Answer : Call → Type) (Exit : Type) : Type → Type 1
  | done {α : Type} (a : α) : Program Call Answer Exit α
  | halt {α : Type} (e : Exit) : Program Call Answer Exit α
  | call {α : Type} (c : Call) (k : Answer c → Program Call Answer Exit α) :
      Program Call Answer Exit α
  | loop {α β γ : Type} (body : β → Program Call Answer Exit (β ⊕ γ)) (b : β)
      (k : γ → Program Call Answer Exit α) : Program Call Answer Exit α

variable {Call : Type} {Answer : Call → Type} {Exit : Type} {α β γ σ : Type}

namespace Program

def bind : Program Call Answer Exit α → (α → Program Call Answer Exit β) →
    Program Call Answer Exit β
  | done a, f => f a
  | halt e, _ => halt e
  | call c k, f => call c (fun a => bind (k a) f)
  | loop body b k, f => loop body b (fun c => bind (k c) f)

instance : Monad (Program Call Answer Exit) where
  pure := done
  bind := bind

theorem bind_done (p : Program Call Answer Exit α) : p.bind done = p := by
  induction p with
  | done a => rfl
  | halt e => rfl
  | call c k ih => simp only [bind, ih]
  | loop body b k _ ih => simp only [bind, ih]

theorem bind_assoc (p : Program Call Answer Exit α) (f : α → Program Call Answer Exit β)
    (g : β → Program Call Answer Exit γ) :
    (p.bind f).bind g = p.bind (fun a => (f a).bind g) := by
  induction p with
  | done a => rfl
  | halt e => rfl
  | call c k ih => simp only [bind, ih]
  | loop body b k _ ih => simp only [bind, ih]

instance : LawfulMonad (Program Call Answer Exit) :=
  LawfulMonad.mk' _ bind_done (fun _ _ => rfl) bind_assoc

@[simp] theorem pure_eq (a : α) : (pure a : Program Call Answer Exit α) = done a := rfl

@[simp] theorem done_bind (a : α) (f : α → Program Call Answer Exit β) :
    (done a >>= f) = f a := rfl

@[simp] theorem halt_bind (e : Exit) (f : α → Program Call Answer Exit β) :
    ((halt e : Program Call Answer Exit α) >>= f) = halt e := rfl

@[simp] theorem call_bind (c : Call) (k : Answer c → Program Call Answer Exit α)
    (f : α → Program Call Answer Exit β) : (call c k >>= f) = call c (fun a => k a >>= f) := rfl

end Program

/-- One call, whose answer is the result. -/
def ask (c : Call) : Program Call Answer Exit (Answer c) := .call c .done

@[simp] theorem ask_bind (c : Call) (f : Answer c → Program Call Answer Exit β) :
    (ask c >>= f) = .call c f := rfl

/-- How much of a program has been observed: a run may be cut at any point. -/
inductive Outcome (Exit α : Type) where
  | cut
  | halted (e : Exit)
  | returned (a : α)

/-- The answers an environment in a given state may give, and its next state. -/
abbrev Environment (Call : Type) (Answer : Call → Type) (σ : Type) :=
  σ → (c : Call) → Answer c → σ → Prop

/-- Runs of a loop, given the runs of its body. -/
inductive Iterates (R : β → σ → Outcome Exit (β ⊕ γ) → σ → Prop) :
    β → σ → Outcome Exit γ → σ → Prop
  | cut {b w w'} : R b w .cut w' → Iterates R b w .cut w'
  | halted {b w e w'} : R b w (.halted e) w' → Iterates R b w (.halted e) w'
  | stop {b w c w'} : R b w (.returned (.inr c)) w' → Iterates R b w (.returned c) w'
  | next {b w b' w₁ o w'} : R b w (.returned (.inl b')) w₁ → Iterates R b' w₁ o w' →
      Iterates R b w o w'

/-- Runs of one program followed by another that takes its result. -/
inductive Sequenced (R : σ → Outcome Exit α → σ → Prop)
    (S : α → σ → Outcome Exit β → σ → Prop) : σ → Outcome Exit β → σ → Prop
  | cut {w w'} : R w .cut w' → Sequenced R S w .cut w'
  | halted {w e w'} : R w (.halted e) w' → Sequenced R S w (.halted e) w'
  | next {w a w₁ o w'} : R w (.returned a) w₁ → S a w₁ o w' → Sequenced R S w o w'

/-- The complete and the interrupted runs of a program. -/
def Runs (env : Environment Call Answer σ) : {α : Type} → Program Call Answer Exit α → σ →
    Outcome Exit α → σ → Prop
  | _, .done a, w, o, w' => (o = .cut ∨ o = .returned a) ∧ w' = w
  | _, .halt e, w, o, w' => (o = .cut ∨ o = .halted e) ∧ w' = w
  | _, .call c k, w, o, w' =>
      (o = .cut ∧ w' = w) ∨ ∃ a w₁, env w c a w₁ ∧ Runs env (k a) w₁ o w'
  | _, .loop body b k, w, o, w' =>
      Sequenced (Iterates (fun b => Runs env (body b)) b) (fun c => Runs env (k c)) w o w'

section

variable {env : Environment Call Answer σ}

theorem runs_done {a : α} {w : σ} :
    Runs env (.done a : Program Call Answer Exit α) w (.returned a) w := ⟨.inr rfl, rfl⟩

theorem runs_halt {e : Exit} {w : σ} :
    Runs env (.halt e : Program Call Answer Exit α) w (.halted e) w := ⟨.inr rfl, rfl⟩

theorem returned_done {a b : α} {w w' : σ}
    (h : Runs env (.done a : Program Call Answer Exit α) w (.returned b) w') : b = a ∧ w' = w := by
  obtain ⟨ho | ho, rfl⟩ := h
  · cases ho
  · exact ⟨Outcome.returned.inj ho, rfl⟩

theorem not_returned_halt {e : Exit} {w w' : σ} {a : α} :
    ¬ Runs env (.halt e : Program Call Answer Exit α) w (.returned a) w' := by
  rintro ⟨ho | ho, -⟩ <;> cases ho

theorem runs_call {c : Call} {k : Answer c → Program Call Answer Exit α} {w w₁ w' : σ}
    {a : Answer c} {o : Outcome Exit α} (ha : env w c a w₁) (hk : Runs env (k a) w₁ o w') :
    Runs env (.call c k) w o w' := .inr ⟨a, w₁, ha, hk⟩

/-- Every program may be cut before its first step. -/
theorem runs_cut (p : Program Call Answer Exit α) (w : σ) : Runs env p w .cut w := by
  induction p generalizing w with
  | done a => exact ⟨.inl rfl, rfl⟩
  | halt e => exact ⟨.inl rfl, rfl⟩
  | call c k _ => exact .inl ⟨rfl, rfl⟩
  | loop body b k ihb _ => exact .cut (.cut (ihb b w))

theorem sequenced_call {c : Call} {k : Answer c → Program Call Answer Exit α}
    {S : α → σ → Outcome Exit β → σ → Prop} {w w₁ w' : σ} {a : Answer c} {o : Outcome Exit β}
    (ha : env w c a w₁) (h : Sequenced (Runs env (k a)) S w₁ o w') :
    Sequenced (Runs env (.call c k)) S w o w' := by
  cases h with
  | cut h => exact .cut (runs_call ha h)
  | halted h => exact .halted (runs_call ha h)
  | next h hs => exact .next (runs_call ha h) hs

theorem sequenced_assoc {R : σ → Outcome Exit α → σ → Prop}
    {S : α → σ → Outcome Exit β → σ → Prop} {T : β → σ → Outcome Exit γ → σ → Prop}
    {w w' : σ} {o : Outcome Exit γ} :
    Sequenced (Sequenced R S) T w o w' ↔ Sequenced R (fun a => Sequenced (S a) T) w o w' := by
  constructor
  · rintro (h | h | ⟨h, ht⟩)
    · cases h with
      | cut h => exact .cut h
      | next h hs => exact .next h (.cut hs)
    · cases h with
      | halted h => exact .halted h
      | next h hs => exact .next h (.halted hs)
    · cases h with
      | next h hs => exact .next h (.next hs ht)
  · rintro (h | h | ⟨h, hs⟩)
    · exact .cut (.cut h)
    · exact .halted (.halted h)
    · cases hs with
      | cut hs => exact .cut (.next h hs)
      | halted hs => exact .halted (.next h hs)
      | next hs ht => exact .next (.next h hs) ht

theorem runs_bind (p : Program Call Answer Exit α) (f : α → Program Call Answer Exit β)
    (w w' : σ) (o : Outcome Exit β) :
    Runs env (p >>= f) w o w' ↔ Sequenced (Runs env p) (fun a => Runs env (f a)) w o w' := by
  induction p generalizing w w' o with
  | done a =>
    constructor
    · intro h
      exact .next runs_done h
    · rintro (h | h | ⟨h, hf⟩)
      · obtain ⟨_, rfl⟩ := h
        exact runs_cut _ _
      · simp [Runs] at h
      · obtain ⟨h, rfl⟩ := h
        simp only [reduceCtorEq, Outcome.returned.injEq, false_or] at h
        exact h ▸ hf
  | halt e =>
    constructor
    · rintro ⟨rfl | rfl, rfl⟩
      · exact .cut (runs_cut _ _)
      · exact .halted runs_halt
    · rintro (h | h | ⟨h, _⟩)
      · obtain ⟨_, rfl⟩ := h
        exact runs_cut _ _
      · obtain ⟨h, rfl⟩ := h
        simp only [reduceCtorEq, Outcome.halted.injEq, false_or] at h
        exact h ▸ runs_halt
      · simp [Runs] at h
  | call c k ih =>
    constructor
    · rintro (⟨rfl, rfl⟩ | ⟨a, w₁, ha, h⟩)
      · exact .cut (runs_cut _ _)
      · exact sequenced_call ha ((ih a f w₁ w' _).mp h)
    · rintro (h | h | ⟨h, hf⟩)
      · obtain ⟨_, rfl⟩ | ⟨a, w₁, ha, h⟩ := h
        · exact runs_cut _ _
        · exact runs_call ha ((ih a f w₁ w' _).mpr (.cut h))
      · obtain ⟨h, _⟩ | ⟨a, w₁, ha, h⟩ := h
        · simp at h
        · exact runs_call ha ((ih a f w₁ w' _).mpr (.halted h))
      · obtain ⟨h, _⟩ | ⟨a, w₁, ha, h⟩ := h
        · simp at h
        · exact runs_call ha ((ih a f w₁ w' _).mpr (.next h hf))
  | loop body b k _ ih =>
    change Sequenced _ (fun c => Runs env (k c >>= f)) w o w' ↔ Sequenced (Sequenced _ _) _ w o w'
    rw [sequenced_assoc]
    have hs : (fun c => Runs env (k c >>= f)) =
        fun c => Sequenced (Runs env (k c)) (fun a => Runs env (f a)) := by
      funext c w₁ o₁ w₂
      exact propext (ih c f w₁ w₂ o₁)
    rw [hs]

theorem returned_bind {p : Program Call Answer Exit α} {f : α → Program Call Answer Exit β}
    {w w' : σ} {b : β} (h : Runs env (p >>= f) w (.returned b) w') :
    ∃ a w₁, Runs env p w (.returned a) w₁ ∧ Runs env (f a) w₁ (.returned b) w' := by
  cases (runs_bind p f w w' _).mp h with
  | next hp hf => exact ⟨_, _, hp, hf⟩

theorem runs_next {p : Program Call Answer Exit α} {f : α → Program Call Answer Exit β}
    {w w₁ w' : σ} {a : α} {o : Outcome Exit β} (hp : Runs env p w (.returned a) w₁)
    (hf : Runs env (f a) w₁ o w') : Runs env (p >>= f) w o w' :=
  (runs_bind p f w w' o).mpr (.next hp hf)

section

variable {body : β → Program Call Answer Exit (β ⊕ γ)} {k : γ → Program Call Answer Exit α}
variable {b b' : β} {w w₁ w' : σ} {o : Outcome Exit α}

theorem loop_next (hb : Runs env (body b) w (.returned (.inl b')) w₁)
    (h : Runs env (.loop body b' k) w₁ o w') : Runs env (.loop body b k) w o w' := by
  cases h with
  | cut h => exact .cut (.next hb h)
  | halted h => exact .halted (.next hb h)
  | next h hk => exact .next (.next hb h) hk

theorem loop_stop {c : γ} (hb : Runs env (body b) w (.returned (.inr c)) w₁)
    (hk : Runs env (k c) w₁ o w') : Runs env (.loop body b k) w o w' := .next (.stop hb) hk

theorem loop_halted {e : Exit} (hb : Runs env (body b) w (.halted e) w') :
    Runs env (.loop body b k) w (.halted e) w' := .halted (.halted hb)

end

end

end Ti3.Library.Interaction
