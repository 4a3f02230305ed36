import Ti3.Library.Rules

namespace Ti3.Library.History

open Interaction Rules

variable {Call : Type} {Answer : Call → Type} {Exit : Type} {α β γ : Type}

/-- A call together with the answer it got. Histories list the newest first. -/
abbrev Event (Call : Type) (Answer : Call → Type) := Σ c : Call, Answer c

/-- The environment that gives the answers allowed after a history and keeps
the history. -/
def recorded (allowed : List (Event Call Answer) → (c : Call) → Answer c → Prop) :
    Environment Call Answer (List (Event Call Answer)) :=
  fun h c a h' => allowed h c a ∧ h' = ⟨c, a⟩ :: h

variable {allowed ok : List (Event Call Answer) → (c : Call) → Answer c → Prop}

theorem iterates_suffix {R : β → List (Event Call Answer) → Outcome Exit (β ⊕ γ) →
      List (Event Call Answer) → Prop} (hR : ∀ ⦃b h o h'⦄, R b h o h' → h <:+ h')
    {b : β} {h h' : List (Event Call Answer)} {o : Outcome Exit γ} (hr : Iterates R b h o h') :
    h <:+ h' := by
  induction hr with
  | cut hr | halted hr | stop hr => exact hR hr
  | next hr _ ih => exact (hR hr).trans ih

theorem runs_suffix (p : Program Call Answer Exit α) {h h' : List (Event Call Answer)}
    {o : Outcome Exit α} (hr : Runs (recorded allowed) p h o h') : h <:+ h' := by
  induction p generalizing h h' with
  | done a | halt e =>
    obtain ⟨_, rfl⟩ := hr
    exact List.suffix_rfl
  | call c k ih =>
    obtain ⟨_, rfl⟩ | ⟨a, _, ⟨_, rfl⟩, hr⟩ := hr
    · exact List.suffix_rfl
    · exact (List.suffix_cons _ _).trans (ih a hr)
  | loop body b k ihb ihk =>
    cases hr with
    | cut hr | halted hr => exact iterates_suffix (fun b _ _ _ => ihb b) hr
    | next hr hk => exact (iterates_suffix (fun b _ _ _ => ihb b) hr).trans (ihk _ hk)

/-- Every event of a history, together with the history before it, is as told. -/
def Throughout (ok : List (Event Call Answer) → (c : Call) → Answer c → Prop)
    (h : List (Event Call Answer)) : Prop := ∀ c a t, ⟨c, a⟩ :: t <:+ h → ok t c a

theorem throughout_of_suffix {h h' : List (Event Call Answer)} (hs : h <:+ h')
    (ht : Throughout ok h') : Throughout ok h := fun c a t hc => ht c a t (hc.trans hs)

/-- A run whose events all satisfy a condition is a run against the environment
restricted by it. -/
theorem runs_restrict (p : Program Call Answer Exit α) {h h' : List (Event Call Answer)}
    {o : Outcome Exit α} (hr : Runs (recorded allowed) p h o h') (ht : Throughout ok h') :
    Runs (recorded (fun h c a => allowed h c a ∧ ok h c a)) p h o h' := by
  induction p generalizing h h' with
  | done a | halt e => exact hr
  | call c k ih =>
    obtain ⟨rfl, rfl⟩ | ⟨a, _, ⟨ha, rfl⟩, hr⟩ := hr
    · exact runs_cut _ _
    · exact runs_call ⟨⟨ha, ht c a h (runs_suffix _ hr)⟩, rfl⟩ (ih a hr ht)
  | loop body b k ihb ihk =>
    have hi : ∀ {b h o h'}, Iterates (fun b => Runs (recorded allowed) (body b)) b h o h' →
        Throughout ok h' →
        Iterates (fun b => Runs (recorded (fun h c a => allowed h c a ∧ ok h c a)) (body b))
          b h o h' := by
      intro b h o h' hr ht
      induction hr with
      | cut hr => exact .cut (ihb _ hr ht)
      | halted hr => exact .halted (ihb _ hr ht)
      | stop hr => exact .stop (ihb _ hr ht)
      | next hr hn ih =>
        have hs := iterates_suffix (fun b _ _ _ => runs_suffix (body b)) hn
        exact .next (ihb _ hr (throughout_of_suffix hs ht)) (ih ht)
    cases hr with
    | cut hr => exact .cut (hi hr ht)
    | halted hr => exact .halted (hi hr ht)
    | next hr hk => exact .next (hi hr (throughout_of_suffix (runs_suffix _ hk) ht)) (ihk _ hk ht)

theorem throughout_cons {c : Call} {a : Answer c} {h : List (Event Call Answer)} :
    Throughout ok (⟨c, a⟩ :: h) ↔ ok h c a ∧ Throughout ok h := by
  constructor
  · intro ht
    exact ⟨ht c a h List.suffix_rfl, throughout_of_suffix (List.suffix_cons _ _) ht⟩
  · rintro ⟨ha, ht⟩ c' a' t hs
    obtain he | hs := List.suffix_cons_iff.mp hs
    · cases he
      exact ha
    · exact ht c' a' t hs

theorem throughout_nil : Throughout ok ([] : List (Event Call Answer)) :=
  fun _ _ _ hs => absurd (List.suffix_nil.mp hs) (List.cons_ne_nil _ _)

theorem heads_restrict {body : β → Program Call Answer Exit (β ⊕ γ)} {b b' : β}
    {h h' : List (Event Call Answer)} (hh : Heads (recorded allowed) body b h b' h')
    (ht : Throughout ok h') :
    Heads (recorded (fun h c a => allowed h c a ∧ ok h c a)) body b h b' h' := by
  induction hh with
  | start => exact .start
  | next _ hr ih =>
    exact .next (ih (throughout_of_suffix (runs_suffix _ hr) ht)) (runs_restrict _ hr ht)

/-- Every event that a run adds to a history is as told, and so is the result. -/
def Keeps (allowed ok : List (Event Call Answer) → (c : Call) → Answer c → Prop)
    (p : Program Call Answer Exit α) (h : List (Event Call Answer))
    (Q : α → List (Event Call Answer) → Prop) : Prop :=
  Guarantees (recorded allowed) p h
    (fun o h' => (Throughout ok h → Throughout ok h') ∧ ∀ a, o = .returned a → Q a h')

variable {h : List (Event Call Answer)} {Q : α → List (Event Call Answer) → Prop}

theorem keeps_done {a : α} (hq : Q a h) :
    Keeps allowed ok (.done a : Program Call Answer Exit α) h Q := by
  rw [Keeps, guarantees_done]
  refine ⟨⟨id, nofun⟩, id, fun b hb => ?_⟩
  cases hb
  exact hq

theorem keeps_halt {e : Exit} : Keeps allowed ok (.halt e : Program Call Answer Exit α) h Q :=
  guarantees_halt.mpr ⟨⟨id, nofun⟩, id, nofun⟩

theorem keeps_call {c : Call} {k : Answer c → Program Call Answer Exit α}
    (hk : ∀ a, allowed h c a → ok h c a ∧ Keeps allowed ok (k a) (⟨c, a⟩ :: h) Q) :
    Keeps allowed ok (.call c k) h Q := by
  rw [Keeps, guarantees_call]
  refine ⟨⟨id, nofun⟩, ?_⟩
  rintro a _ ⟨ha, rfl⟩
  obtain ⟨hok, hkeep⟩ := hk a ha
  exact guarantees_mono hkeep
    (fun o h' hp => ⟨fun ht => hp.1 (throughout_cons.mpr ⟨hok, ht⟩), hp.2⟩)

theorem keeps_mono {p : Program Call Answer Exit α} {R : α → List (Event Call Answer) → Prop}
    (hp : Keeps allowed ok p h R) (hq : ∀ a h', R a h' → Q a h') : Keeps allowed ok p h Q :=
  guarantees_mono hp (fun _ _ hp => ⟨hp.1, fun a ha => hq a _ (hp.2 a ha)⟩)

theorem keeps_bind {p : Program Call Answer Exit β} {f : β → Program Call Answer Exit α}
    {R : β → List (Event Call Answer) → Prop} (hp : Keeps allowed ok p h R)
    (hf : ∀ b h', R b h' → Keeps allowed ok (f b) h' Q) : Keeps allowed ok (p >>= f) h Q := by
  refine guarantees_bind (fun o h₁ hr => ?_)
  obtain ⟨ht, hres⟩ := hp o h₁ hr
  cases o with
  | cut => exact ⟨ht, nofun⟩
  | halted e => exact ⟨ht, nofun⟩
  | returned b =>
    exact guarantees_mono (hf b h₁ (hres b rfl)) (fun _ _ hq => ⟨fun h₀ => hq.1 (ht h₀), hq.2⟩)

theorem keeps_loop {body : β → Program Call Answer Exit (β ⊕ γ)} {b : β}
    {k : γ → Program Call Answer Exit α} (J : β → List (Event Call Answer) → Prop)
    (R : γ → List (Event Call Answer) → Prop) (h₀ : J b h)
    (hJ : ∀ b h, J b h → Keeps allowed ok (body b) h (Sum.elim J R))
    (hk : ∀ c h', R c h' → Keeps allowed ok (k c) h' Q) :
    Keeps allowed ok (.loop body b k) h Q := by
  refine guarantees_loop (fun b h' => (Throughout ok h → Throughout ok h') ∧ J b h') ⟨id, h₀⟩ ?_
  rintro b h₁ ⟨ht, hj⟩ o h₂ hr
  obtain ⟨ht', hres⟩ := hJ b h₁ hj o h₂ hr
  cases o with
  | cut => exact ⟨fun h₀ => ht' (ht h₀), nofun⟩
  | halted e => exact ⟨fun h₀ => ht' (ht h₀), nofun⟩
  | returned r =>
    have hr := hres r rfl
    cases r with
    | inl b => exact ⟨fun h₀ => ht' (ht h₀), hr⟩
    | inr c =>
      exact guarantees_mono (hk c h₂ hr)
        (fun _ _ hq => ⟨fun h₀ => hq.1 (ht' (ht h₀)), hq.2⟩)

/-- The events of a run are allowed ones. -/
theorem keeps_allowed (p : Program Call Answer Exit α) (h : List (Event Call Answer)) :
    Keeps allowed allowed p h (fun _ _ => True) := by
  induction p generalizing h with
  | done a => exact keeps_done trivial
  | halt e => exact keeps_halt
  | call c k ih => exact keeps_call (fun a ha => ⟨ha, ih a _⟩)
  | loop body b k ihb ihk =>
    refine keeps_loop (fun _ _ => True) (fun _ _ => True) trivial (fun b h _ => ?_)
      (fun c h' _ => ihk c h')
    exact keeps_mono (ihb b h) (fun r _ _ => by cases r <;> trivial)

theorem keeps_trivial (p : Program Call Answer Exit α) :
    Keeps allowed (fun _ _ _ => True) p h (fun _ _ => True) :=
  fun _ _ _ => ⟨fun _ _ _ _ _ => trivial, fun _ _ => trivial⟩

/-- A program makes no other calls than these, whatever the answers. -/
def Only (P : Call → Prop) : {α : Type} → Program Call Answer Exit α → Prop
  | _, .done _ | _, .halt _ => True
  | _, .call c k => P c ∧ ∀ a, Only P (k a)
  | _, .loop body _ k => (∀ b, Only P (body b)) ∧ ∀ c, Only P (k c)

variable {P : Call → Prop}

theorem only_bind {p : Program Call Answer Exit α} {f : α → Program Call Answer Exit β}
    (hp : Only P p) (hf : ∀ a, Only P (f a)) : Only P (p >>= f) := by
  induction p with
  | done a => exact hf a
  | halt e => trivial
  | call c k ih => exact ⟨hp.1, fun a => ih a (hp.2 a) hf⟩
  | loop body b k _ ih => exact ⟨hp.1, fun c => ih c (hp.2 c) hf⟩

theorem only_mono {P' : Call → Prop} {p : Program Call Answer Exit α} (hp : Only P p)
    (h : ∀ c, P c → P' c) : Only P' p := by
  induction p with
  | done a | halt e => trivial
  | call c k ih => exact ⟨h c hp.1, fun a => ih a (hp.2 a)⟩
  | loop body b k ihb ihk => exact ⟨fun b => ihb b (hp.1 b), fun c => ihk c (hp.2 c)⟩

/-- What the calls of a program do not change, its runs do not change. -/
theorem keeps_only {p : Program Call Answer Exit α} (hp : Only P p)
    (I : List (Event Call Answer) → Prop) (hI : ∀ h c a, P c → I h → I (⟨c, a⟩ :: h)) (hi : I h) :
    Keeps allowed (fun _ _ _ => True) p h (fun _ => I) := by
  induction p generalizing h with
  | done a => exact keeps_done hi
  | halt e => exact keeps_halt
  | call c k ih => exact keeps_call (fun a _ => ⟨trivial, ih a (hp.2 a) (hI h c a hp.1 hi)⟩)
  | loop body b k ihb ihk =>
    refine keeps_loop (fun _ => I) (fun _ => I) hi (fun b h hi => ?_)
      (fun c h' hi => ihk c (hp.2 c) hi)
    exact keeps_mono (ihb b (hp.1 b) hi) (fun r _ hi => by cases r <;> exact hi)

/-- That also holds of the runs that end early. -/
theorem only_guarantees {p : Program Call Answer Exit α} (hp : Only P p)
    (I : List (Event Call Answer) → Prop) (hI : ∀ h c a, P c → I h → I (⟨c, a⟩ :: h)) (hi : I h) :
    Guarantees (recorded allowed) p h (fun _ => I) := by
  induction p generalizing h with
  | done a => exact guarantees_done.mpr ⟨hi, hi⟩
  | halt e => exact guarantees_halt.mpr ⟨hi, hi⟩
  | call c k ih =>
    refine guarantees_call.mpr ⟨hi, ?_⟩
    rintro a _ ⟨-, rfl⟩
    exact ih a (hp.2 a) (hI h c a hp.1 hi)
  | loop body b k ihb ihk =>
    refine guarantees_loop (fun _ => I) hi (fun b h hi => ?_)
    refine guarantees_mono (ihb b (hp.1 b) hi) (fun o h' hi => ?_)
    cases o with
    | cut | halted _ => exact hi
    | returned r =>
      cases r with
      | inl b' => exact hi
      | inr c => exact ihk c (hp.2 c) hi

theorem keeps_and {p : Program Call Answer Exit α} {R : α → List (Event Call Answer) → Prop}
    (hq : Keeps allowed ok p h Q) (hr : Keeps allowed ok p h R) :
    Keeps allowed ok p h (fun a h' => Q a h' ∧ R a h') :=
  fun o h' hrun => ⟨(hq o h' hrun).1, fun a ha => ⟨(hq o h' hrun).2 a ha, (hr o h' hrun).2 a ha⟩⟩

end Ti3.Library.History
