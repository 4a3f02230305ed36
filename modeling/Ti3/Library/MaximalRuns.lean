import Mathlib.Algebra.BigOperators.Intervals

namespace Ti3.Library.MaximalRuns

variable {α : Type} (p : α → Bool)

/-- There is an element with the property at a position. -/
def holdsAt (l : List α) (k : Nat) : Bool := l[k]?.any p

/-- The elements from `i` up to `j` have the property, and those next to them do
not. -/
def MaximalRun (l : List α) (i j : Nat) : Prop :=
  i < j ∧ (∀ k < j, i ≤ k → holdsAt p l k) ∧ (∀ k < i, k + 1 = i → ¬ holdsAt p l k) ∧
    ¬ holdsAt p l j

instance (l : List α) (i j : Nat) : Decidable (MaximalRun p l i j) :=
  inferInstanceAs (Decidable (_ ∧ _ ∧ _ ∧ _))

/-- The number of the maximal runs of elements with the property. -/
def runs (l : List α) : Nat :=
  ((Finset.range (l.length + 1) ×ˢ Finset.range (l.length + 1)).filter
    (fun ij => MaximalRun p l ij.1 ij.2)).card

/-- The runs that begin in a list, when it is entered inside of a run or not. -/
def runsFrom : Bool → List α → Nat
  | _, [] => 0
  | inRun, a :: l => (if p a ∧ ¬ inRun then 1 else 0) + runsFrom (p a) l

/-- The property of the element before a position. -/
def holdsBefore (inRun : Bool) (l : List α) : Nat → Bool
  | 0 => inRun
  | k + 1 => holdsAt p l k

/-- The positions at which a run begins. -/
def starts (inRun : Bool) (l : List α) : Finset Nat :=
  (Finset.range l.length).filter (fun i => holdsAt p l i ∧ ¬ holdsBefore p inRun l i)

variable {p} {l : List α} {i j j' : Nat}

theorem holdsAt_lt (h : holdsAt p l i) : i < l.length := by
  by_contra hi
  rw [holdsAt, List.getElem?_eq_none (Nat.le_of_not_lt hi)] at h
  cases h

theorem holdsBefore_cons (inRun : Bool) (a : α) (l : List α) (i : Nat) :
    holdsBefore p inRun (a :: l) (i + 1) = holdsBefore p (p a) l i := by
  cases i <;> rfl

theorem card_starts (inRun : Bool) (l : List α) :
    (starts p inRun l).card = runsFrom p inRun l := by
  induction l generalizing inRun with
  | nil => rfl
  | cons a l ih =>
    rw [runsFrom, ← ih, starts, starts, Finset.card_filter, Finset.card_filter, List.length_cons,
      Finset.sum_range_succ', Nat.add_comm]
    simp only [holdsBefore_cons]
    rfl

/-- A run ends where the property ends. -/
theorem maximalRun_unique (h : MaximalRun p l i j) (h' : MaximalRun p l i j') : j = j' := by
  obtain ⟨hlt, hin, -, hend⟩ := h
  obtain ⟨hlt', hin', -, hend'⟩ := h'
  rcases Nat.lt_trichotomy j j' with hj | hj | hj
  · exact absurd (hin' j hj (Nat.le_of_lt hlt)) hend
  · exact hj
  · exact absurd (hin j' hj (Nat.le_of_lt hlt')) hend'

theorem exists_maximalRun (h : holdsAt p l i) (hb : ¬ holdsBefore p false l i) :
    ∃ j ≤ l.length, MaximalRun p l i j := by
  have hex : ∃ j, i < j ∧ ¬ holdsAt p l j :=
    ⟨l.length, holdsAt_lt h, fun hl => absurd (holdsAt_lt hl) (Nat.lt_irrefl _)⟩
  obtain ⟨hij, hend⟩ := Nat.find_spec hex
  have hin : ∀ k < Nat.find hex, i ≤ k → holdsAt p l k := by
    intro k hk hik
    by_cases he : i = k
    · exact he ▸ h
    · exact Decidable.not_not.mp (fun hn => Nat.find_min hex hk ⟨by omega, hn⟩)
  refine ⟨Nat.find hex, ?_, hij, hin, ?_, hend⟩
  · exact Nat.find_min' hex ⟨holdsAt_lt h, fun hl => absurd (holdsAt_lt hl) (Nat.lt_irrefl _)⟩
  · rintro k - rfl
    exact hb

/-- Every run is counted where it begins. -/
theorem runs_eq (l : List α) : runs p l = runsFrom p false l := by
  rw [← card_starts, runs]
  apply Finset.card_nbij Prod.fst
  · rintro ⟨i, j⟩ hij
    obtain ⟨-, hlt, hin, hbefore, -⟩ := Finset.mem_filter.mp hij
    have hi : holdsAt p l i := hin i hlt (Nat.le_refl i)
    refine Finset.mem_filter.mpr ⟨Finset.mem_range.mpr (holdsAt_lt hi), hi, ?_⟩
    cases i with
    | zero => exact Bool.false_ne_true
    | succ k => exact hbefore k (Nat.lt_succ_self k) rfl
  · rintro ⟨i, j⟩ hij ⟨i', j'⟩ hij' he
    obtain rfl : i = i' := he
    have hj : j = j' :=
      maximalRun_unique (Finset.mem_filter.mp hij).2 (Finset.mem_filter.mp hij').2
    rw [hj]
  · intro i hi
    obtain ⟨hr, hi, hb⟩ := Finset.mem_filter.mp hi
    obtain ⟨j, hj, hrun⟩ := exists_maximalRun hi hb
    refine ⟨(i, j), Finset.mem_filter.mpr ⟨Finset.mem_product.mpr ⟨?_, ?_⟩, hrun⟩, rfl⟩
    · exact Finset.mem_range.mpr (Nat.lt_succ_of_lt (holdsAt_lt hi))
    · exact Finset.mem_range.mpr (Nat.lt_succ_of_le hj)

theorem runsFrom_le (inRun : Bool) (l : List α) : runsFrom p inRun l ≤ l.length := by
  induction l generalizing inRun with
  | nil => exact Nat.le_refl 0
  | cons a l ih =>
    have hl := ih (p a)
    rw [runsFrom, List.length_cons]
    split <;> omega

theorem runsFrom_append (inRun : Bool) (l m : List α) : runsFrom p inRun (l ++ m) =
    runsFrom p inRun l + runsFrom p (l.getLast?.elim inRun p) m := by
  induction l generalizing inRun with
  | nil => simp [runsFrom]
  | cons a l ih =>
    have hlast : (a :: l).getLast?.elim inRun p = l.getLast?.elim (p a) p := by
      cases l with
      | nil => rfl
      | cons b l => rw [List.getLast?_cons_cons, List.getLast?_cons]; rfl
    rw [List.cons_append, runsFrom, runsFrom, ih, hlast, Nat.add_assoc]

theorem runsFrom_inside (m : List α) :
    runsFrom p true m + (if m.head?.any p then 1 else 0) = runsFrom p false m := by
  cases m with
  | nil => rfl
  | cons a m => cases h : p a <;> simp [runsFrom, h]; omega

/-- A run that goes on over the seam is one and not two. -/
theorem runs_append (l m : List α) :
    runs p (l ++ m) + (if l.getLast?.any p ∧ m.head?.any p then 1 else 0) =
      runs p l + runs p m := by
  rw [runs_eq, runs_eq, runs_eq, runsFrom_append, ← runsFrom_inside m]
  cases hl : l.getLast? with
  | none => simp [runsFrom_inside]
  | some a =>
    cases hp : p a
    · simp [hp, runsFrom_inside]
    · simp [hp, Nat.add_assoc]

end Ti3.Library.MaximalRuns
