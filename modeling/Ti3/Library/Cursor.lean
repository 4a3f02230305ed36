import Mathlib.Order.WellFounded

namespace Ti3.Library.Cursor

/-- What a cursor makes of the place it stands at: it passes over it, hands out
an element, comes to its end or fails. -/
inductive Verdict (S E X : Type) where
  | skip (s : S)
  | give (e : E) (s : S)
  | stop (s : S)
  | fail (x : X)

variable {S E X : Type}

/-- The next verdict that is not passed over. -/
inductive Finds (examine : S → Verdict S E X) : S → Verdict S E X → Prop
  | skip {s s' v} : examine s = .skip s' → Finds examine s' v → Finds examine s v
  | give {s e s'} : examine s = .give e s' → Finds examine s (.give e s')
  | stop {s s'} : examine s = .stop s' → Finds examine s (.stop s')
  | fail {s x} : examine s = .fail x → Finds examine s (.fail x)

variable {examine : S → Verdict S E X} {s s' : S} {e : E} {v : Verdict S E X}

theorem finds_unique {v' : Verdict S E X} (h : Finds examine s v) (h' : Finds examine s v') :
    v = v' := by
  induction h with
  | skip hs _ ih =>
    cases h' with
    | skip hs' h' =>
      rw [hs] at hs'
      cases hs'
      exact ih h'
    | give hs' | stop hs' | fail hs' => simp [hs] at hs'
  | give hs =>
    cases h' with
    | give hs' => rw [← hs, hs']
    | skip hs' _ | stop hs' | fail hs' => simp [hs] at hs'
  | stop hs =>
    cases h' with
    | stop hs' => rw [← hs, hs']
    | skip hs' _ | give hs' | fail hs' => simp [hs] at hs'
  | fail hs =>
    cases h' with
    | fail hs' => rw [← hs, hs']
    | skip hs' _ | give hs' | stop hs' => simp [hs] at hs'

/-- The elements handed out one after another, with the place behind each. -/
inductive Gives (examine : S → Verdict S E X) (s : S) : List (E × S) → S → Prop
  | start : Gives examine s [] s
  | next {es s₁ e s₂} : Gives examine s es s₁ → Finds examine s₁ (.give e s₂) →
      Gives examine s (es ++ [(e, s₂)]) s₂

def Moves (examine : S → Verdict S E X) (s s' : S) : Prop :=
  examine s = .skip s' ∨ ∃ e, examine s = .give e s'

/-- A cursor that cannot move on forever. -/
def Ends (examine : S → Verdict S E X) (s : S) : Prop :=
  Acc (fun s' s => Moves examine s s') s

theorem gives_unique {es es' : List (E × S)} {s₁ s₂ : S} (h : Gives examine s es s₁)
    (h' : Gives examine s es' s₂) (hlen : es.length = es'.length) : es = es' ∧ s₁ = s₂ := by
  induction h generalizing es' s₂ with
  | start =>
    cases h' with
    | start => exact ⟨rfl, rfl⟩
    | next _ _ => simp at hlen
  | next _ hf ih =>
    cases h' with
    | start => simp at hlen
    | next h' hf' =>
      obtain ⟨rfl, rfl⟩ := ih h' (by simpa using hlen)
      cases finds_unique hf hf'
      exact ⟨rfl, rfl⟩

/-- What comes next is found where the first elements lead. -/
theorem gives_next {es es' : List (E × S)} {s₁ s₂ : S} (h : Gives examine s es s₁)
    (h' : Gives examine s es' s₂) (hlen : es.length < es'.length) :
    ∃ e s', es'[es.length]? = some (e, s') ∧ Finds examine s₁ (.give e s') := by
  induction h' with
  | start => simp at hlen
  | @next es' s₃ e s₄ h' hf ih =>
    rw [List.length_append] at hlen
    obtain hlt | heq := Nat.lt_or_eq_of_le (Nat.le_of_lt_succ hlen)
    · obtain ⟨e, s', hs, hfind⟩ := ih hlt
      exact ⟨e, s', by rw [List.getElem?_append_left hlt, hs], hfind⟩
    · obtain ⟨rfl, rfl⟩ := gives_unique h h' heq
      exact ⟨e, s₄, List.getElem?_concat_length, hf⟩

theorem gives_isPrefix {es es' : List (E × S)} {s₁ s₂ : S} (h : Gives examine s es s₁)
    (h' : Gives examine s es' s₂) (hlen : es.length ≤ es'.length) : es <+: es' := by
  induction h' with
  | start =>
    obtain rfl := List.length_eq_zero_iff.mp (Nat.le_zero.mp hlen)
    exact List.prefix_refl []
  | @next es' s₃ e s₄ h' hf ih =>
    obtain hlt | heq := Nat.lt_or_eq_of_le hlen
    · rw [List.length_append] at hlt
      exact (ih (Nat.le_of_lt_succ hlt)).trans (List.prefix_append _ _)
    · obtain ⟨rfl, -⟩ := gives_unique h (.next h' hf) heq
      exact List.prefix_refl _

/-- Everything that a cursor hands out until it stops. -/
inductive Produces (examine : S → Verdict S E X) : S → List E → Prop
  | skip {p p' es} : examine p = .skip p' → Produces examine p' es → Produces examine p es
  | give {p x p' es} : examine p = .give x p' → Produces examine p' es →
      Produces examine p (x :: es)
  | stop {p p'} : examine p = .stop p' → Produces examine p []

theorem gives_cons {es : List (E × S)} {s₁ : S} (hf : Finds examine s (.give e s'))
    (h : Gives examine s' es s₁) : Gives examine s ((e, s') :: es) s₁ := by
  induction h with
  | start => exact .next .start hf
  | next _ hf' ih => exact .next ih hf'

theorem gives_skip {es : List (E × S)} {s₁ : S} (hs : examine s = .skip s')
    (h : Gives examine s' es s₁) : (es = [] ∧ s₁ = s') ∨ Gives examine s es s₁ := by
  induction h with
  | start => exact .inl ⟨rfl, rfl⟩
  | next _ hf ih =>
    obtain ⟨rfl, rfl⟩ | ih := ih
    · exact .inr (.next .start (.skip hs hf))
    · exact .inr (.next ih hf)

theorem produces_give {es : List E} (h : Finds examine s v) (hv : v = .give e s')
    (hp : Produces examine s' es) : Produces examine s (e :: es) := by
  induction h with
  | skip hs _ ih => exact .skip hs (ih hv)
  | give hs =>
    cases hv
    exact .give hs hp
  | stop | fail => cases hv

theorem produces_stop (h : Finds examine s v) (hv : v = .stop s') : Produces examine s [] := by
  induction h with
  | skip hs _ ih => exact .skip hs (ih hv)
  | stop hs => exact .stop hs
  | give | fail => cases hv

theorem produces_iff {es : List E} : Produces examine s es ↔ ∃ gs s₁ s₂,
    Gives examine s gs s₁ ∧ Finds examine s₁ (.stop s₂) ∧ gs.map Prod.fst = es := by
  constructor
  · intro h
    induction h with
    | skip hs _ ih =>
      obtain ⟨gs, s₁, s₂, hg, hf, rfl⟩ := ih
      obtain ⟨rfl, rfl⟩ | hg := gives_skip hs hg
      · exact ⟨[], _, s₂, .start, .skip hs hf, rfl⟩
      · exact ⟨gs, s₁, s₂, hg, hf, rfl⟩
    | give hs _ ih =>
      obtain ⟨gs, s₁, s₂, hg, hf, rfl⟩ := ih
      exact ⟨_, s₁, s₂, gives_cons (.give hs) hg, hf, rfl⟩
    | stop hs => exact ⟨[], _, _, .start, .stop hs, rfl⟩
  · rintro ⟨gs, s₁, s₂, hg, hf, rfl⟩
    have hall : ∀ es, Produces examine s₁ es → Produces examine s (gs.map Prod.fst ++ es) := by
      clear hf
      induction hg with
      | start => exact fun es h => h
      | next _ hf ih =>
        intro es h
        rw [List.map_append, List.append_assoc]
        exact ih _ (produces_give hf rfl h)
    simpa using hall [] (produces_stop hf rfl)

end Ti3.Library.Cursor
