import Mathlib.Algebra.BigOperators.Group.Finset.Basic
import Ti3.Library.Concurrency

namespace Ti3.Library.Quiescence

open Interaction Concurrency

variable {Call : Type} {Answer : Call → Type} {Exit : Type} {α β γ σ ι : Type}

section small

variable {env : Environment Call Answer σ} {w w' : σ} {p' : Program Call Answer Exit α}

theorem small_call {c : Call} {k : Answer c → Program Call Answer Exit α}
    (h : Small env (.call c k) w p' w') : ∃ a, env w c a w' ∧ p' = k a := by
  cases h with
  | call ha => exact ⟨_, ha, rfl⟩

theorem small_loop {body : β → Program Call Answer Exit (β ⊕ γ)} {b : β}
    {k : γ → Program Call Answer Exit α} (h : Small env (.loop body b k) w p' w') :
    p' = (body b >>= Sum.elim (fun b' => .loop body b' k) k) ∧ w' = w := by
  cases h with
  | loop => exact ⟨rfl, rfl⟩

theorem not_small_done {a : α} : ¬ Small env (.done a) w p' w' := by
  rintro ⟨⟩

theorem not_small_halt {e : Exit} : ¬ Small env (.halt e) w p' w' := by
  rintro ⟨⟩

end small

section rest

variable [DecidableEq ι] {env : ι → Environment Call Answer σ}
variable {C : Configuration Call Answer Exit α σ ι}

/-- No program can take a step. -/
def Rests (env : ι → Environment Call Answer σ) (C : Configuration Call Answer Exit α σ ι) : Prop :=
  ∀ C', ¬ Step env C C'

theorem rests_small (h : Rests env C) (i : ι) (p' : Program Call Answer Exit α) (w' : σ) :
    ¬ Small (env i) (C.programs i) C.world p' w' :=
  fun hs => h _ (.of i hs)

/-- At rest, each program has ended or waits for an answer that does not come. -/
theorem rests_iff : Rests env C ↔ ∀ i, (∃ a, returned (C.programs i) = some a) ∨
    (∃ e, halted (C.programs i) = some e) ∨
      ∃ c, calling (C.programs i) = some c ∧ ∀ a w', ¬ env i C.world c a w' := by
  constructor
  · intro h i
    have hsmall := rests_small h i
    cases hp : C.programs i with
    | done a => exact .inl ⟨a, rfl⟩
    | halt e => exact .inr (.inl ⟨e, rfl⟩)
    | call c k => exact .inr (.inr ⟨c, rfl, fun a w' ha => hsmall (k a) w' (hp ▸ .call ha)⟩)
    | loop body b k =>
      have hs : Small (env i) (C.programs i) C.world
          (body b >>= Sum.elim (fun b' => .loop body b' k) k) C.world := hp ▸ .loop
      exact absurd hs (hsmall _ _)
  · rintro h _ ⟨i, hs⟩
    obtain ⟨a, ha⟩ | ⟨e, he⟩ | ⟨c, hc, hno⟩ := h i
    · cases hp : C.programs i with
      | done => exact not_small_done (hp ▸ hs)
      | halt | call | loop =>
        rw [hp] at ha
        cases ha
    · cases hp : C.programs i with
      | halt => exact not_small_halt (hp ▸ hs)
      | done | call | loop =>
        rw [hp] at he
        cases he
    · cases hp : C.programs i with
      | call c' k =>
        rw [hp] at hc
        cases hc
        obtain ⟨a, ha, -⟩ := small_call (hp ▸ hs)
        exact hno _ _ ha
      | done | halt | loop =>
        rw [hp] at hc
        cases hc

end rest

section measure

variable {S : Type*} {R : S → S → Prop} {W : Nat → S → Prop}

/-- If every step leads to a lower rank, there are no more steps than the rank tells. -/
theorem steps_bounded (hW : ∀ n s s', W n s → R s s' → ∃ m < n, W m s') {n : Nat} {f : Nat → S}
    (h : W n (f 0)) {k : Nat} (hf : ∀ j < k, R (f j) (f (j + 1))) : k ≤ n := by
  have hrank : ∃ m, W m (f k) ∧ m + k ≤ n := by
    induction k with
    | zero => exact ⟨n, h, Nat.le_refl n⟩
    | succ k ih =>
      obtain ⟨m, hm, hle⟩ := ih (fun j hj => hf j (by omega))
      obtain ⟨m', hlt, hm'⟩ := hW m _ _ hm (hf k (by omega))
      exact ⟨m', hm', by omega⟩
  obtain ⟨m, -, hle⟩ := hrank
  omega

variable [Fintype ι] [DecidableEq ι]

/-- What is charged to one party only changes the sum by as much. -/
theorem sum_charge (charge charge' : ι → Nat) (i : ι)
    (h : ∀ j, j ≠ i → charge' j = charge j) :
    ∑ j, charge' j + charge i = ∑ j, charge j + charge' i := by
  have hrest : ∑ j ∈ Finset.univ.erase i, charge' j = ∑ j ∈ Finset.univ.erase i, charge j :=
    Finset.sum_congr rfl (fun j hj => h j (Finset.ne_of_mem_erase hj))
  rw [← Finset.add_sum_erase Finset.univ charge' (Finset.mem_univ i),
    ← Finset.add_sum_erase Finset.univ charge (Finset.mem_univ i), hrest]
  omega

end measure

end Ti3.Library.Quiescence
