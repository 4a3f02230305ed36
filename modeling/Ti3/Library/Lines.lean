import Mathlib.Data.List.Infix

namespace Ti3.Library.Lines

variable {α : Type} [DecidableEq α] {e : α} {l rest u v : List α}

/-- The lines of a text, each with its end `e` if it has one. -/
def lines (e : α) : List α → List (List α)
  | [] => []
  | c :: s =>
    if c = e then [c] :: lines e s
    else match lines e s with
      | [] => [[c]]
      | l :: ls => (c :: l) :: ls

/-- A line is what stands before and with the first end, or the whole text. -/
def IsLine (e : α) : List α → List α → Prop
  | [], rest => rest = []
  | c :: l, rest => if c = e then l = [] else IsLine e l rest

theorem isLine_end {c : α} (hc : c = e) : IsLine e (c :: l) rest ↔ l = [] := by
  rw [IsLine, if_pos hc]

theorem isLine_cons {c : α} (hc : c ≠ e) : IsLine e (c :: l) rest ↔ IsLine e l rest := by
  rw [IsLine, if_neg hc]

theorem lines_line (hl : IsLine e l rest) (hne : l ≠ []) :
    lines e (l ++ rest) = l :: lines e rest := by
  induction l with
  | nil => exact absurd rfl hne
  | cons c l ih =>
    by_cases hc : c = e
    · have hnil := (isLine_end hc).mp hl
      simp [lines, hc, hnil]
    · have hl' := (isLine_cons hc).mp hl
      cases l with
      | nil =>
        have hrest : rest = [] := hl'
        simp [lines, hc, hrest]
      | cons d l =>
        have hr := ih hl' (List.cons_ne_nil d l)
        rw [List.cons_append, lines, if_neg hc, hr]

theorem exists_line (e : α) (s : List α) :
    ∃ l rest, s = l ++ rest ∧ IsLine e l rest ∧ (s ≠ [] → l ≠ []) := by
  induction s with
  | nil => exact ⟨[], [], rfl, rfl, fun h => absurd rfl h⟩
  | cons c s ih =>
    by_cases hc : c = e
    · exact ⟨[c], s, rfl, (isLine_end hc).mpr rfl, fun _ => List.cons_ne_nil _ _⟩
    · obtain ⟨l, rest, rfl, hl, _⟩ := ih
      exact ⟨c :: l, rest, rfl, (isLine_cons hc).mpr hl, fun _ => List.cons_ne_nil _ _⟩

theorem isLine_append (hu : e ∉ u) : IsLine e (u ++ v) rest ↔ IsLine e v rest := by
  induction u with
  | nil => rfl
  | cons c u ih =>
    obtain ⟨hc, hu⟩ := not_or.mp (fun h => hu (List.mem_cons.mpr h))
    rw [List.cons_append, isLine_cons (Ne.symm hc), ih hu]

end Ti3.Library.Lines
