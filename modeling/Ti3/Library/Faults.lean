import Ti3.Library.Determinism

namespace Ti3.Library.Faults

open Interaction Rules Determinism

variable {Call : Type} {Answer : Call → Type} {Exit : Type} {α β γ σ M : Type}

/-- Until the first fault an environment works as a function does. -/
def Sound (f : σ → (c : Call) → Answer c × σ) (env : Environment Call Answer (σ × M)) (ok : M) :
    Prop :=
  ∀ w c a w', env (w, ok) c a (w', ok) → f w c = (a, w')

/-- Without a fault a program runs as it should. After a fault `E` tells what has become of it,
in comparison to a state that it would have come to without the fault. -/
def Survives (f : σ → (c : Call) → Answer c × σ) (env : Environment Call Answer (σ × M)) (ok : M)
    (E : σ → Outcome Exit α → σ × M → Prop) (p : Program Call Answer Exit α) : Prop :=
  ∀ w, Guarantees env p (w, ok) (fun o s => s.2 = ok ∧ Runs (handled f) p w o s.1 ∨
    s.2 ≠ ok ∧ ∃ w₁, Runs (handled f) p w .cut w₁ ∧ E w₁ o s)

variable {f : σ → (c : Call) → Answer c × σ} {env : Environment Call Answer (σ × M)} {ok : M}
variable {E : σ → Outcome Exit α → σ × M → Prop}

theorem survives_done (a : α) : Survives f env ok E (.done a) := by
  intro w
  exact guarantees_done.mpr ⟨.inl ⟨rfl, runs_cut _ _⟩, .inl ⟨rfl, runs_done⟩⟩

theorem survives_halt (e : Exit) : Survives f env ok E (.halt e) := by
  intro w
  exact guarantees_halt.mpr ⟨.inl ⟨rfl, runs_cut _ _⟩, .inl ⟨rfl, runs_halt⟩⟩

/-- What a fault of this very call leads to is compared with the state before the call, or with
the one after it. -/
theorem survives_call (hs : Sound f env ok) {c : Call} {k : Answer c → Program Call Answer Exit α}
    (hfault : ∀ w a w' m, m ≠ ok → env (w, ok) c a (w', m) → ∃ w₁, (w₁ = w ∨ w₁ = (f w c).2) ∧
      Guarantees env (k a) (w', m) (fun o s => s.2 ≠ ok ∧ E w₁ o s))
    (hk : ∀ a, Survives f env ok E (k a)) : Survives f env ok E (.call c k) := by
  intro w
  refine guarantees_call.mpr ⟨.inl ⟨rfl, runs_cut _ _⟩, fun a s ha => ?_⟩
  obtain ⟨w', m⟩ := s
  by_cases hm : m = ok
  · subst hm
    have hf := hs w c a w' ha
    refine guarantees_mono (hk a w') (fun o s h => ?_)
    obtain ⟨hs, hr⟩ | ⟨hs, w₁, hr, he⟩ := h
    · exact .inl ⟨hs, runs_call hf hr⟩
    · exact .inr ⟨hs, w₁, runs_call hf hr, he⟩
  · obtain ⟨w₁, hw₁, hg⟩ := hfault w a w' m hm ha
    refine guarantees_mono hg (fun o s h => .inr ⟨h.1, w₁, ?_, h.2⟩)
    obtain rfl | rfl := hw₁
    · exact runs_cut _ _
    · exact runs_call rfl (runs_cut _ _)

/-- What becomes of the first of two programs, if the second one comes to `E`. -/
def lead (env : Environment Call Answer (σ × M)) (ok : M)
    (E : σ → Outcome Exit β → σ × M → Prop) (g : α → Program Call Answer Exit β) (w₁ : σ) :
    Outcome Exit α → σ × M → Prop :=
  follow (E w₁) (fun a s => Guarantees env (g a) s (fun o s => s.2 ≠ ok ∧ E w₁ o s))

theorem survives_bind {E : σ → Outcome Exit β → σ × M → Prop} {p : Program Call Answer Exit α}
    {g : α → Program Call Answer Exit β} (hp : Survives f env ok (lead env ok E g) p)
    (hg : ∀ a, Survives f env ok E (g a)) : Survives f env ok E (p >>= g) := by
  intro w
  refine guarantees_bind (fun o s hrun => ?_)
  obtain ⟨hs, hr⟩ | ⟨hs, w₁, hr, he⟩ := hp w o s hrun
  · cases o with
    | cut => exact .inl ⟨hs, (runs_bind _ _ _ _ _).mpr (.cut hr)⟩
    | halted e => exact .inl ⟨hs, (runs_bind _ _ _ _ _).mpr (.halted hr)⟩
    | returned a =>
      obtain ⟨w', m⟩ := s
      obtain rfl : m = ok := hs
      refine guarantees_mono (hg a w') (fun o s h => ?_)
      obtain ⟨hs, hr'⟩ | ⟨hs, w₁, hr', he⟩ := h
      · exact .inl ⟨hs, runs_next hr hr'⟩
      · exact .inr ⟨hs, w₁, runs_next hr hr', he⟩
  · have hcut := (runs_bind p g w w₁ .cut).mpr (.cut hr)
    cases o with
    | cut | halted e => exact .inr ⟨hs, w₁, hcut, he⟩
    | returned a => exact guarantees_mono he (fun o s h => .inr ⟨h.1, w₁, hcut, h.2⟩)

/-- The same for the body of a loop, which does not go on after a fault. -/
def leave (env : Environment Call Answer (σ × M)) (ok : M)
    (E : σ → Outcome Exit α → σ × M → Prop) (k : γ → Program Call Answer Exit α) (w₁ : σ) :
    Outcome Exit (β ⊕ γ) → σ × M → Prop :=
  follow (E w₁) (Sum.elim (fun _ _ => False)
    (fun c s => Guarantees env (k c) s (fun o s => s.2 ≠ ok ∧ E w₁ o s)))

theorem survives_loop {body : β → Program Call Answer Exit (β ⊕ γ)} {b : β}
    {k : γ → Program Call Answer Exit α}
    (hb : ∀ b, Survives f env ok (leave env ok E k) (body b))
    (hk : ∀ c, Survives f env ok E (k c)) : Survives f env ok E (.loop body b k) := by
  intro w
  refine guarantees_loop (fun b' s => s.2 = ok ∧ Heads (handled f) body b w b' s.1) ⟨rfl, .start⟩
    (fun b' s ⟨hs, hheads⟩ o s' hr => ?_)
  obtain ⟨w', m⟩ := s
  obtain rfl : m = ok := hs
  have hiterates {o : Outcome Exit γ} {w'' : σ}
      (h : Iterates (fun b => Runs (handled f) (body b)) b' w' o w'') := heads_iterates hheads h
  obtain ⟨hs', hr'⟩ | ⟨hs', w₁, hr', he⟩ := hb b' w' o s' hr
  · cases o with
    | cut => exact .inl ⟨hs', .cut (hiterates (.cut hr'))⟩
    | halted e => exact .inl ⟨hs', .halted (hiterates (.halted hr'))⟩
    | returned x =>
      cases x with
      | inl b'' => exact ⟨hs', .next hheads hr'⟩
      | inr c =>
        have hstop := hiterates (.stop hr')
        obtain ⟨w'', m'⟩ := s'
        obtain rfl : m' = m := hs'
        refine guarantees_mono (hk c w'') (fun o s h => ?_)
        obtain ⟨hs, hr⟩ | ⟨hs, w₁, hr, he⟩ := h
        · exact .inl ⟨hs, .next hstop hr⟩
        · exact .inr ⟨hs, w₁, .next hstop hr, he⟩
  · have hcut : Runs (handled f) (.loop body b k) w .cut w₁ := .cut (hiterates (.cut hr'))
    cases o with
    | cut | halted e => exact .inr ⟨hs', w₁, hcut, he⟩
    | returned x =>
      cases x with
      | inl b'' => exact he.elim
      | inr c => exact guarantees_mono he (fun o s h => .inr ⟨h.1, w₁, hcut, h.2⟩)

theorem survives_mono {E' : σ → Outcome Exit α → σ × M → Prop} {p : Program Call Answer Exit α}
    (hp : Survives f env ok E p) (he : ∀ w₁ o s, s.2 ≠ ok → E w₁ o s → E' w₁ o s) :
    Survives f env ok E' p := by
  intro w
  refine guarantees_mono (hp w) (fun o s h => ?_)
  obtain h | ⟨hs, w₁, hr, h⟩ := h
  · exact .inl h
  · exact .inr ⟨hs, w₁, hr, he w₁ o s hs h⟩

section stopped

variable {V : σ → σ × M → Prop} {bad : Exit → Prop} {w₁ : σ} {s : σ × M}

/-- A run has ended early, with `V` and a bad exit if at all. -/
def Stopped (V : σ → σ × M → Prop) (bad : Exit → Prop) (w₁ : σ) (o : Outcome Exit α)
    (s : σ × M) : Prop :=
  V w₁ s ∧ (o = .cut ∨ ∃ e, o = .halted e ∧ bad e)

theorem stopped_lead {E : σ → Outcome Exit β → σ × M → Prop} {g : α → Program Call Answer Exit β}
    (hE : ∀ o, Stopped V bad w₁ o s → E w₁ o s) {o : Outcome Exit α}
    (h : Stopped V bad w₁ o s) : lead env ok E g w₁ o s := by
  obtain ⟨hv, rfl | ⟨e, rfl, he⟩⟩ := h
  · exact hE .cut ⟨hv, .inl rfl⟩
  · exact hE (.halted e) ⟨hv, .inr ⟨e, rfl, he⟩⟩

theorem stopped_leave {E : σ → Outcome Exit α → σ × M → Prop} {g : γ → Program Call Answer Exit α}
    (hE : ∀ o, Stopped V bad w₁ o s → E w₁ o s) {o : Outcome Exit (β ⊕ γ)}
    (h : Stopped V bad w₁ o s) : leave env ok E g w₁ o s := by
  obtain ⟨hv, rfl | ⟨e, rfl, he⟩⟩ := h
  · exact hE .cut ⟨hv, .inl rfl⟩
  · exact hE (.halted e) ⟨hv, .inr ⟨e, rfl, he⟩⟩

/-- After a fault the program is given up. -/
theorem halt_stopped {E : Outcome Exit α → σ × M → Prop} {e : Exit} (hs : s.2 ≠ ok) (hv : V w₁ s)
    (he : bad e) (hE : ∀ o, Stopped V bad w₁ o s → E o s) :
    Guarantees env (.halt e : Program Call Answer Exit α) s (fun o s' => s'.2 ≠ ok ∧ E o s') :=
  guarantees_halt.mpr ⟨⟨hs, hE _ ⟨hv, .inl rfl⟩⟩, hs, hE _ ⟨hv, .inr ⟨e, rfl, he⟩⟩⟩

/-- Programs that are given up after a fault, one after the other and in a loop. -/
theorem stopped_bind {p : Program Call Answer Exit α} {g : α → Program Call Answer Exit β}
    (hp : Survives f env ok (Stopped V bad) p) (hg : ∀ a, Survives f env ok (Stopped V bad) (g a)) :
    Survives f env ok (Stopped V bad) (p >>= g) :=
  survives_bind (survives_mono hp (fun _ _ _ _ => stopped_lead (fun _ h => h))) hg

theorem stopped_loop {body : β → Program Call Answer Exit (β ⊕ γ)} {b : β}
    {k : γ → Program Call Answer Exit α} (hb : ∀ b, Survives f env ok (Stopped V bad) (body b))
    (hk : ∀ c, Survives f env ok (Stopped V bad) (k c)) :
    Survives f env ok (Stopped V bad) (.loop body b k) :=
  survives_loop (fun b => survives_mono (hb b) (fun _ _ _ _ => stopped_leave (fun _ h => h))) hk

end stopped

section order

variable {R : σ → σ → Prop} [IsTrans σ R]

def Grows (R : σ → σ → Prop) (S : σ → Outcome Exit α → σ → Prop) : Prop :=
  ∀ ⦃w o w'⦄, S w o w' → R w w'

/-- Where an interrupted run stands comes before where the run ends. -/
def Ordered (R : σ → σ → Prop) (S : σ → Outcome Exit α → σ → Prop) : Prop :=
  ∀ ⦃w w₁ o w'⦄, S w .cut w₁ → S w o w' → o ≠ .cut → R w₁ w'

theorem iterates_grows {S : β → σ → Outcome Exit (β ⊕ γ) → σ → Prop} (hS : ∀ b, Grows R (S b))
    (b : β) : Grows R (Iterates S b) := by
  intro w o w' h
  induction h with
  | cut h | halted h | stop h => exact hS _ h
  | next h _ ih => exact IsTrans.trans _ _ _ (hS _ h) ih

theorem sequenced_grows {S : σ → Outcome Exit α → σ → Prop} {T : α → σ → Outcome Exit β → σ → Prop}
    (hS : Grows R S) (hT : ∀ a, Grows R (T a)) : Grows R (Sequenced S T) := by
  intro w o w' h
  cases h with
  | cut h | halted h => exact hS h
  | next h ht => exact IsTrans.trans _ _ _ (hS h) (hT _ ht)

theorem iterates_ordered {S : β → σ → Outcome Exit (β ⊕ γ) → σ → Prop}
    (hS : ∀ b, Ordered R (S b)) (hgrows : ∀ b, Grows R (S b)) (hdet : ∀ b, Deterministic (S b))
    (b : β) : Ordered R (Iterates S b) := by
  intro w w₁ o w' hcut h ho
  induction h with
  | cut h => exact absurd rfl ho
  | halted h =>
    cases hcut with
    | cut hc => exact hS _ hc h (by simp)
    | next h' hi => cases (hdet _ h h' (by simp) (by simp)).1
  | stop h =>
    cases hcut with
    | cut hc => exact hS _ hc h (by simp)
    | next h' hi => cases (hdet _ h h' (by simp) (by simp)).1
  | next h hrest ih =>
    cases hcut with
    | cut hc => exact IsTrans.trans _ _ _ (hS _ hc h (by simp)) (iterates_grows hgrows _ hrest)
    | next h' hi =>
      obtain ⟨he, rfl⟩ := hdet _ h h' (by simp) (by simp)
      cases he
      exact ih hi ho

theorem sequenced_ordered {S : σ → Outcome Exit α → σ → Prop}
    {T : α → σ → Outcome Exit β → σ → Prop} (hS : Ordered R S) (hT : ∀ a, Ordered R (T a))
    (hgrows : ∀ a, Grows R (T a)) (hdet : Deterministic S) : Ordered R (Sequenced S T) := by
  intro w w₁ o w' hcut h ho
  cases h with
  | cut h => exact absurd rfl ho
  | halted h =>
    cases hcut with
    | cut hc => exact hS hc h (by simp)
    | next h' ht => cases (hdet h h' (by simp) (by simp)).1
  | next h ht =>
    cases hcut with
    | cut hc => exact IsTrans.trans _ _ _ (hS hc h (by simp)) (hgrows _ ht)
    | next h' ht' =>
      obtain ⟨he, rfl⟩ := hdet h h' (by simp) (by simp)
      cases he
      exact hT _ ht' ht ho

variable [Std.Refl R]

theorem runs_grows (hf : ∀ w c, R w (f w c).2) (p : Program Call Answer Exit α) :
    Grows R (Runs (handled f) p) := by
  induction p with
  | done a | halt e =>
    rintro w o w' ⟨-, rfl⟩
    exact refl w'
  | call c k ih =>
    rintro w o w' (⟨-, rfl⟩ | ⟨a, w₁, ha, h⟩)
    · exact refl w'
    · have hstep := hf w c
      rw [ha] at hstep
      exact IsTrans.trans _ _ _ hstep (ih a h)
  | loop body b k ihb ihk => exact sequenced_grows (iterates_grows ihb b) ihk

theorem runs_ordered (hf : ∀ w c, R w (f w c).2) (p : Program Call Answer Exit α) :
    Ordered R (Runs (handled f) p) := by
  induction p with
  | done a | halt e =>
    rintro w w₁ o w' ⟨-, rfl⟩ ⟨-, rfl⟩ -
    exact refl _
  | call c k ih =>
    intro w w₁ o w' hcut h ho
    obtain ⟨rfl, -⟩ | ⟨a, w₂, ha, h⟩ := h
    · exact absurd rfl ho
    · obtain ⟨-, rfl⟩ | ⟨a', w₂', ha', hcut⟩ := hcut
      · exact runs_grows hf (.call c k) (runs_call ha h)
      · obtain ⟨rfl, rfl⟩ := Prod.mk.inj (ha.symm.trans ha')
        exact ih a hcut h ho
  | loop body b k ihb ihk =>
    exact sequenced_ordered (iterates_ordered ihb (fun b => runs_grows hf (body b))
      (fun b => runs_deterministic f (body b)) b) ihk (fun c => runs_grows hf (k c))
      (iterates_deterministic (fun b => runs_deterministic f (body b)) b)

/-- A run with a fault has come, up to what `E` tells, no further than the run without. -/
theorem survives_outcome {E : σ → Outcome Exit α → σ × M → Prop} {p : Program Call Answer Exit α}
    {w w' : σ} {o' : Outcome Exit α} (hf : ∀ w c, R w (f w c).2) (hp : Survives f env ok E p)
    (hr : Runs (handled f) p w o' w') (ho' : o' ≠ .cut) :
    Guarantees env p (w, ok) (fun o s =>
      (s.2 = ok ∧ R s.1 w' ∧ (o ≠ .cut → o = o' ∧ s.1 = w')) ∨
        s.2 ≠ ok ∧ ∃ w₁, R w₁ w' ∧ E w₁ o s) := by
  intro o s h
  obtain ⟨hs, hr'⟩ | ⟨hs, w₁, hcut, he⟩ := hp w o s h
  · refine .inl ⟨hs, ?_, fun ho => runs_deterministic f p hr' hr ho ho'⟩
    by_cases ho : o = .cut
    · subst ho
      exact runs_ordered hf p hr' hr ho'
    · obtain ⟨-, rfl⟩ := runs_deterministic f p hr' hr ho ho'
      exact refl _
  · exact .inr ⟨hs, w₁, runs_ordered hf p hcut hr ho', he⟩

end order

/-- Whether a call has failed, and if so whether it has been a read of the stream. -/
inductive Condition where
  | fine
  | failed (reading : Bool)
  deriving DecidableEq

def Condition.reading : Condition → Bool
  | fine => false
  | failed reading => reading

def Condition.fail (m : Condition) : Condition := .failed m.reading

/-- A new stream has not been read. -/
def Condition.opened : Condition → Condition
  | fine => fine
  | failed _ => failed false

end Ti3.Library.Faults
