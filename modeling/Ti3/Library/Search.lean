import Mathlib.Data.List.Infix

namespace Ti3.Library.Search

variable {α : Type} {p u v : List α} {c : α}

/-- In `u ++ v` no occurrence of `p` starts within `u`. -/
def NotBefore (p u v : List α) : Prop :=
  ∀ u₁ u₂, u = u₁ ++ u₂ → u₂ ≠ [] → ¬ p <+: u₂ ++ v

theorem notBefore_nil (p v : List α) : NotBefore p [] v :=
  fun _ _ h hne => absurd (List.append_eq_nil_iff.mp h.symm).2 hne

/-- One place further when there is no occurrence here. -/
theorem notBefore_snoc (h : NotBefore p u (c :: v)) (hp : ¬ p <+: c :: v) :
    NotBefore p (u ++ [c]) v := by
  intro u₁ u₂ he hne
  obtain ⟨u₂, d, rfl⟩ := List.eq_nil_or_concat u₂ |>.resolve_left hne
  rw [List.concat_eq_append, ← List.append_assoc] at he
  obtain ⟨rfl, hd⟩ := List.append_inj' he rfl
  cases hd
  rw [List.concat_eq_append, List.append_assoc, List.singleton_append]
  by_cases hu : u₂ = []
  · rw [hu]
    exact hp
  · exact h u₁ u₂ rfl hu

/-- Where the rest is too short, the search has come to its end. -/
theorem not_occurs (h : NotBefore p u v) (hl : v.length < p.length) : ¬ p <:+: u ++ v := by
  rintro ⟨s, t, he⟩
  have hlen := congrArg List.length he
  simp only [List.length_append] at hlen
  have hs : s <+: u ++ v := ⟨p ++ t, by rw [← List.append_assoc, he]⟩
  obtain ⟨u₂, rfl⟩ := List.prefix_of_prefix_length_le hs (List.prefix_append u v) (by omega)
  rw [List.append_assoc, List.append_assoc, List.append_cancel_left_eq] at he
  refine h s u₂ rfl (fun hn => ?_) ⟨t, he⟩
  rw [hn, List.append_nil] at hlen
  omega

theorem occurs_behind (h : p <+: v) (u : List α) : p <:+: u ++ v :=
  h.isInfix.trans (List.suffix_append u v).isInfix

end Ti3.Library.Search
