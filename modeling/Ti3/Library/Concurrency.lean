import Mathlib.Logic.Relation
import Ti3.Library.Rules

namespace Ti3.Library.Concurrency

open Interaction Rules

variable {Call : Type} {Answer : Call → Type} {Exit : Type} {α β γ σ τ ι : Type}

/-- One step of a program: a call is answered, or a loop starts a round. -/
inductive Small (env : Environment Call Answer σ) :
    {α : Type} → Program Call Answer Exit α → σ → Program Call Answer Exit α → σ → Prop
  | call {α : Type} {c : Call} {k : Answer c → Program Call Answer Exit α} {a : Answer c}
      {w w' : σ} : env w c a w' → Small env (.call c k) w (k a) w'
  | loop {α β γ : Type} {body : β → Program Call Answer Exit (β ⊕ γ)} {b : β}
      {k : γ → Program Call Answer Exit α} {w : σ} :
      Small env (.loop body b k) w (body b >>= Sum.elim (fun b' => .loop body b' k) k) w

/-- A step leads into the runs of what is left. -/
theorem small_runs {env : Environment Call Answer σ} {p p' : Program Call Answer Exit α}
    {w w' w'' : σ} {o : Outcome Exit α} (h : Small env p w p' w') (hr : Runs env p' w' o w'') :
    Runs env p w o w'' := by
  cases h with
  | call ha => exact runs_call ha hr
  | loop =>
    cases (runs_bind _ _ _ _ _).mp hr with
    | cut hb => exact .cut (.cut hb)
    | halted hb => exact .halted (.halted hb)
    | next hb hk =>
      rename_i a _
      cases a with
      | inl b' => exact loop_next hb hk
      | inr c => exact loop_stop hb hk

/-- Programs that share a state. -/
structure Configuration (Call : Type) (Answer : Call → Type) (Exit α σ ι : Type) where
  programs : ι → Program Call Answer Exit α
  world : σ

/-- What one program sees of the state follows its own environment, and the
others leave it alone. -/
structure Owns (env : ι → Environment Call Answer σ) (i : ι) (view : σ → τ)
    (own : Environment Call Answer τ) : Prop where
  mine : ∀ w c a w', env i w c a w' → own (view w) c a (view w')
  theirs : ∀ j w c a w', j ≠ i → env j w c a w' → view w' = view w

variable {env : ι → Environment Call Answer σ} {i : ι} {view : σ → τ}
variable {own : Environment Call Answer τ}

theorem small_mine (ho : Owns env i view own) {p p' : Program Call Answer Exit α} {w w' : σ}
    (h : Small (env i) p w p' w') : Small own p (view w) p' (view w') := by
  cases h with
  | call ha => exact .call (ho.mine _ _ _ _ ha)
  | loop => exact .loop

theorem small_theirs (ho : Owns env i view own) {j : ι} (hj : j ≠ i)
    {p p' : Program Call Answer Exit α} {w w' : σ} (h : Small (env j) p w p' w') :
    view w' = view w := by
  cases h with
  | call ha => exact ho.theirs _ _ _ _ _ hj ha
  | loop => rfl

variable [DecidableEq ι]

/-- One of the programs takes a step. -/
inductive Step (env : ι → Environment Call Answer σ) :
    Configuration Call Answer Exit α σ ι → Configuration Call Answer Exit α σ ι → Prop
  | of (i : ι) {C : Configuration Call Answer Exit α σ ι} {p : Program Call Answer Exit α}
      {w : σ} : Small (env i) (C.programs i) C.world p w →
      Step env C ⟨Function.update C.programs i p, w⟩

/-- Any interleaving of any steps. -/
def Reachable (env : ι → Environment Call Answer σ) :
    Configuration Call Answer Exit α σ ι → Configuration Call Answer Exit α σ ι → Prop :=
  Relation.ReflTransGen (Step env)

variable {C C' : Configuration Call Answer Exit α σ ι}

theorem step_runs (ho : Owns env i view own) (h : Step env C C') {o : Outcome Exit α} {v : τ}
    (hr : Runs own (C'.programs i) (view C'.world) o v) :
    Runs own (C.programs i) (view C.world) o v := by
  obtain ⟨j, hs⟩ := h
  by_cases hj : j = i
  · subst hj
    simp only [Function.update_self] at hr
    exact small_runs (small_mine ho hs) hr
  · simp only [Function.update_of_ne (Ne.symm hj), small_theirs ho hj hs] at hr
    exact hr

/-- In every interleaving a program does what it does alone. -/
theorem reachable_runs (ho : Owns env i view own) (h : Reachable env C C') {o : Outcome Exit α}
    {v : τ} (hr : Runs own (C'.programs i) (view C'.world) o v) :
    Runs own (C.programs i) (view C.world) o v := by
  induction h with
  | refl => exact hr
  | tail _ hs ih => exact ih (step_runs ho hs hr)

/-- The call a program waits for. -/
def calling : Program Call Answer Exit α → Option Call
  | .call c _ => some c
  | .done _ | .halt _ | .loop _ _ _ => none

/-- What a program has returned. -/
def returned : Program Call Answer Exit α → Option α
  | .done a => some a
  | .halt _ | .call _ _ | .loop _ _ _ => none

/-- How a program has ended early. -/
def halted : Program Call Answer Exit α → Option Exit
  | .halt e => some e
  | .done _ | .call _ _ | .loop _ _ _ => none

theorem calling_runs {own : Environment Call Answer τ} {p : Program Call Answer Exit α} {c : Call}
    (h : calling p = some c) {a : Answer c} {v v' : τ} (ha : own v c a v') :
    Runs own p v .cut v' := by
  cases p with
  | call c' k =>
    cases h
    exact runs_call ha (runs_cut _ _)
  | done | halt | loop => cases h

theorem returned_runs {own : Environment Call Answer τ} {p : Program Call Answer Exit α} {a : α}
    (h : returned p = some a) {v : τ} : Runs own p v (.returned a) v := by
  cases p with
  | done b =>
    cases h
    exact runs_done
  | call | halt | loop => cases h

/-- One step of one program, if its call is answered. -/
def advance (f : ι → σ → (c : Call) → Option (Answer c × σ)) (i : ι)
    (C : Configuration Call Answer Exit α σ ι) : Configuration Call Answer Exit α σ ι :=
  match C.programs i with
  | .done _ | .halt _ => C
  | .call c k => match f i C.world c with
    | some (a, w) => ⟨Function.update C.programs i (k a), w⟩
    | none => C
  | .loop body b k =>
    ⟨Function.update C.programs i (body b >>= Sum.elim (fun b' => .loop body b' k) k), C.world⟩

theorem advance_reachable {f : ι → σ → (c : Call) → Option (Answer c × σ)}
    (hf : ∀ i w c a w', f i w c = some (a, w') → env i w c a w') (i : ι)
    (C : Configuration Call Answer Exit α σ ι) : Reachable env C (advance f i C) := by
  rw [advance]
  split
  · exact .refl
  · exact .refl
  · next c k hp =>
    split
    · next a w ha =>
      have hs : Small (env i) (C.programs i) C.world (k a) w := hp ▸ .call (hf _ _ _ _ _ ha)
      exact .single (.of i hs)
    · exact .refl
  · next body b k hp =>
    have hs : Small (env i) (C.programs i) C.world
        (body b >>= Sum.elim (fun b' => .loop body b' k) k) C.world := hp ▸ .loop
    exact .single (.of i hs)

/-- The steps of a schedule make up an interleaving. -/
theorem schedule_reachable {f : ι → σ → (c : Call) → Option (Answer c × σ)}
    (hf : ∀ i w c a w', f i w c = some (a, w') → env i w c a w') (schedule : List ι)
    (C : Configuration Call Answer Exit α σ ι) :
    Reachable env C (schedule.foldl (fun C i => advance f i C) C) := by
  induction schedule generalizing C with
  | nil => exact .refl
  | cons i schedule ih =>
    exact (advance_reachable hf i C).trans (ih _)

end Ti3.Library.Concurrency
