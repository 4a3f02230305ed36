import Ti3.Library.Determinism

namespace Ti3.Library.Rounds

open Interaction Rules Determinism

variable {Call : Type} {Answer : Call → Type} {Exit : Type} {α β γ σ : Type}

/-- The states in which a loop starts its body, after so many rounds. -/
inductive HeadAfter (R : β → σ → Outcome Exit (β ⊕ γ) → σ → Prop) (b : β) (w : σ) :
    Nat → β → σ → Prop
  | start : HeadAfter R b w 0 b w
  | next {n b₁ w₁ b₂ w₂} : HeadAfter R b w n b₁ w₁ → R b₁ w₁ (.returned (.inl b₂)) w₂ →
      HeadAfter R b w (n + 1) b₂ w₂

/-- No run of a loop makes more rounds, none leaves it earlier, and one does leave it. -/
structure EndsAfter (R : β → σ → Outcome Exit (β ⊕ γ) → σ → Prop) (b : β) (w : σ) (n : Nat) :
    Prop where
  bounded : ∀ m b' w', HeadAfter R b w m b' w' → m ≤ n
  exact : ∀ m b' w' c w'', HeadAfter R b w m b' w' → R b' w' (.returned (.inr c)) w'' → m = n
  left : ∃ c w', Iterates R b w (.returned c) w'

section

variable {R : β → σ → Outcome Exit (β ⊕ γ) → σ → Prop} {J : β → σ → Prop} {togo : β → Nat}
variable {b : β} {w : σ}

/-- One step of a countdown: to the next value, or out of the loop at zero. -/
def CountsDown (J : β → σ → Prop) (togo : β → Nat) (b : β) (o : Outcome Exit (β ⊕ γ)) (w' : σ) :
    Prop :=
  o = .cut ∨ (∃ b', o = .returned (.inl b') ∧ J b' w' ∧ togo b = togo b' + 1) ∨
    (togo b = 0 ∧ ∃ c, o = .returned (.inr c))

theorem rounds_countdown (hs : ∀ b w o w', J b w → R b w o w' → CountsDown J togo b o w')
    (h : J b w) {m : Nat} {b' : β} {w' : σ} (hr : HeadAfter R b w m b' w') :
    J b' w' ∧ togo b = togo b' + m := by
  induction hr with
  | start => exact ⟨h, rfl⟩
  | next _ hb ih =>
    obtain ⟨hj, ht⟩ := ih
    obtain hc | ⟨b₂, hb₂, hj₂, ht₂⟩ | ⟨_, c, hc⟩ := hs _ _ _ _ hj hb
    · cases hc
    · cases hb₂
      exact ⟨hj₂, by omega⟩
    · cases hc

theorem endsAfter_countdown (hs : ∀ b w o w', J b w → R b w o w' → CountsDown J togo b o w')
    (hr : ∀ b w, J b w → ∃ o w', o ≠ .cut ∧ R b w o w') (h : J b w) :
    EndsAfter R b w (togo b) := by
  refine ⟨fun m b' w' hm => ?_, fun m b' w' c w'' hm hc => ?_, ?_⟩
  · obtain ⟨_, ht⟩ := rounds_countdown hs h hm
    omega
  · obtain ⟨hj, ht⟩ := rounds_countdown hs h hm
    obtain hn | ⟨b₂, hn, _⟩ | ⟨hz, _⟩ := hs _ _ _ _ hj hc
    · cases hn
    · cases hn
    · omega
  · induction hn : togo b generalizing b w with
    | zero =>
      obtain ⟨o, w', ho, hb⟩ := hr b w h
      obtain hc | ⟨b', _, _, ht⟩ | ⟨_, c, rfl⟩ := hs _ _ _ _ h hb
      · exact absurd hc ho
      · omega
      · exact ⟨c, w', .stop hb⟩
    | succ n ih =>
      obtain ⟨o, w', ho, hb⟩ := hr b w h
      obtain hc | ⟨b', rfl, hj, ht⟩ | ⟨hz, _⟩ := hs _ _ _ _ h hb
      · exact absurd hc ho
      · obtain ⟨c, w'', hi⟩ := ih hj (by omega)
        exact ⟨c, w'', .next hb hi⟩
      · omega

end

variable {env : Environment Call Answer σ} {p : Program Call Answer Exit α} {w : σ}

/-- The program comes to an end. -/
def Finishes (env : Environment Call Answer σ) (p : Program Call Answer Exit α) (w : σ) : Prop :=
  ∃ o w', o ≠ .cut ∧ Runs env p w o w'

theorem finishes_done {a : α} : Finishes env (.done a : Program Call Answer Exit α) w :=
  ⟨.returned a, w, nofun, runs_done⟩

theorem finishes_halt {e : Exit} : Finishes env (.halt e : Program Call Answer Exit α) w :=
  ⟨.halted e, w, nofun, runs_halt⟩

theorem finishes_call {c : Call} {k : Answer c → Program Call Answer Exit α} {a : Answer c} {w₁ : σ}
    (ha : env w c a w₁) (h : Finishes env (k a) w₁) : Finishes env (.call c k) w := by
  obtain ⟨o, w', ho, hr⟩ := h
  exact ⟨o, w', ho, runs_call ha hr⟩

theorem finishes_handled_call {f : σ → (c : Call) → Answer c × σ} {c : Call}
    {k : Answer c → Program Call Answer Exit α} : Finishes (handled f) (.call c k) w ↔
      Finishes (handled f) (k (f w c).1) (f w c).2 := by
  constructor
  · rintro ⟨o, w', ho, ⟨hc, _⟩ | ⟨a, w₁, ha, hr⟩⟩
    · exact absurd hc ho
    · rw [ha]
      exact ⟨o, w', ho, hr⟩
  · exact finishes_call rfl

theorem finishes_next {f : α → Program Call Answer Exit β} {a : α} {w₁ : σ}
    (hp : Runs env p w (.returned a) w₁) (hf : Finishes env (f a) w₁) :
    Finishes env (p >>= f) w := by
  obtain ⟨o, w', ho, hr⟩ := hf
  exact ⟨o, w', ho, runs_next hp hr⟩

theorem finishes_bind {f : α → Program Call Answer Exit β} (hp : Finishes env p w)
    (hf : ∀ a w', Runs env p w (.returned a) w' → Finishes env (f a) w') :
    Finishes env (p >>= f) w := by
  obtain ⟨o, w', ho, hr⟩ := hp
  cases o with
  | cut => exact absurd rfl ho
  | halted e => exact ⟨.halted e, w', nofun, (runs_bind _ _ _ _ _).mpr (.halted hr)⟩
  | returned a => exact finishes_next hr (hf a w' hr)

theorem finishes_of_bind {f : α → Program Call Answer Exit β} (h : Finishes env (p >>= f) w) :
    Finishes env p w := by
  obtain ⟨o, w', ho, hr⟩ := h
  cases (runs_bind p f w w' o).mp hr with
  | cut _ => exact absurd rfl ho
  | halted hp => exact ⟨.halted _, _, nofun, hp⟩
  | next hp _ => exact ⟨.returned _, _, nofun, hp⟩

theorem runs_of_iterates {body : β → Program Call Answer Exit (β ⊕ γ)} {b : β} {c : γ} {w' : σ}
    (h : Iterates (fun b => Runs env (body b)) b w (.returned c) w') :
    Runs env (.loop body b .done) w (.returned c) w' := .next h runs_done

/-- A loop whose body ends and lowers a measure whenever it goes on. -/
theorem finishes_loop {body : β → Program Call Answer Exit (β ⊕ γ)} {b : β}
    {k : γ → Program Call Answer Exit α} (J : β → Prop) (togo : β → Nat) (h : J b)
    (hb : ∀ b w, J b → Finishes env (body b) w ∧ ∀ b' w',
      Runs env (body b) w (.returned (.inl b')) w' → J b' ∧ togo b' < togo b)
    (hk : ∀ c w, Finishes env (k c) w) : Finishes env (.loop body b k) w := by
  induction hn : togo b using Nat.strongRecOn generalizing b w with
  | _ n ih =>
    obtain ⟨⟨o, w', ho, hr⟩, hj⟩ := hb b w h
    cases o with
    | cut => exact absurd rfl ho
    | halted e => exact ⟨.halted e, w', nofun, loop_halted hr⟩
    | returned x =>
      cases x with
      | inl b' =>
        obtain ⟨hj, hlt⟩ := hj b' w' hr
        obtain ⟨o, w'', ho, hl⟩ := ih _ (hn ▸ hlt) (w := w') hj rfl
        exact ⟨o, w'', ho, loop_next hr hl⟩
      | inr c =>
        obtain ⟨o, w'', ho, hl⟩ := hk c w'
        exact ⟨o, w'', ho, loop_stop hr hl⟩

/-- What is cut in every run does not finish. -/
theorem not_finishes (h : Guarantees env p w (fun o _ => o = .cut)) : ¬ Finishes env p w := by
  rintro ⟨o, w', ho, hr⟩
  exact ho (h o w' hr)

end Ti3.Library.Rounds
