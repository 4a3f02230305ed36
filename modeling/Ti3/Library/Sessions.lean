import Ti3.Library.Determinism

namespace Ti3.Library.Sessions

open Interaction Determinism

variable {Call : Type} {Answer : Call → Type} {Exit α σ S C : Type}

/-- A program is run to its end once for every command. What it leaves open is closed then. -/
inductive Session (env : Environment Call Answer σ) (tool : C → Program Call Answer Exit α)
    (exit : σ → σ) : σ → List C → List (Outcome Exit α) → σ → Prop
  | stop {w} : Session env tool exit w [] [] w
  | command {w w₁ w' c cs o os} : Runs env (tool c) w o w₁ → o ≠ .cut →
      Session env tool exit (exit w₁) cs os w' → Session env tool exit w (c :: cs) (o :: os) w'

/-- The commands take a machine from one state to another, with these ends. -/
inductive Behaves (ends : S → C → Outcome Exit α → S → Prop) :
    S → List C → List (Outcome Exit α) → S → Prop
  | stop {s} : Behaves ends s [] [] s
  | command {s t s' c cs o os} : ends s c o t → Behaves ends t cs os s' →
      Behaves ends s (c :: cs) (o :: os) s'

theorem behaves_append {ends : S → C → Outcome Exit α → S → Prop} {s s' : S} {cs cs' : List C}
    {os : List (Outcome Exit α)} (h : Behaves ends s (cs ++ cs') os s') :
    ∃ os₁ os₂ t, os = os₁ ++ os₂ ∧ Behaves ends s cs os₁ t ∧ Behaves ends t cs' os₂ s' := by
  induction cs generalizing s os with
  | nil => exact ⟨[], os, s, rfl, .stop, h⟩
  | cons c cs ih =>
    cases h with
    | command hc h =>
      obtain ⟨os₁, os₂, t, rfl, h₁, h₂⟩ := ih h
      exact ⟨_ :: os₁, os₂, t, rfl, .command hc h₁, h₂⟩

variable {f : σ → (c : Call) → Answer c × σ} {tool : C → Program Call Answer Exit α}
variable {exit : σ → σ} {view : σ → S} {ends : S → C → Outcome Exit α → S → Prop}
variable {I : List C → σ → Prop} {w w' : σ} {cs : List C} {os : List (Outcome Exit α)}

/-- One command ends as the machine does, and the next ones can follow. -/
def Simulated (f : σ → (c : Call) → Answer c × σ) (tool : C → Program Call Answer Exit α)
    (exit : σ → σ) (view : σ → S) (ends : S → C → Outcome Exit α → S → Prop)
    (I : List C → σ → Prop) : Prop :=
  ∀ c cs w, I (c :: cs) w → ∃ o w', Runs (handled f) (tool c) w o w' ∧ o ≠ .cut ∧
    ends (view w) c o (view (exit w')) ∧ I cs (exit w')

theorem session_exists (hs : Simulated f tool exit view ends I) (h : I cs w) :
    ∃ os w', Session (handled f) tool exit w cs os w' := by
  induction cs generalizing w with
  | nil => exact ⟨[], w, .stop⟩
  | cons c cs ih =>
    obtain ⟨o, w₁, hr, ho, -, hnext⟩ := hs c cs w h
    obtain ⟨os, w', hsession⟩ := ih hnext
    exact ⟨o :: os, w', .command hr ho hsession⟩

theorem session_behaves (hs : Simulated f tool exit view ends I) (h : I cs w)
    (hr : Session (handled f) tool exit w cs os w') : Behaves ends (view w) cs os (view w') := by
  induction hr with
  | stop => exact .stop
  | command hr ho _ ih =>
    obtain ⟨o', w₂, hr', ho', hends, hnext⟩ := hs _ _ _ h
    obtain ⟨rfl, rfl⟩ := runs_deterministic _ _ hr hr' ho ho'
    exact .command hends (ih hnext)

end Ti3.Library.Sessions
