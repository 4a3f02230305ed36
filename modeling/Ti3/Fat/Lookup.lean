import Ti3.Fat.FileNames
import Ti3.Fat.PathResolution

namespace Ti3.Fat.Lookup

open Library.CString Library.CMemory Library.Interaction Library.Determinism Library.Rules
open DriveLs Image Iterator Loops PathResolution FileNames

variable {drive : Drive} {info : FatInfo} {st : DirEntryIteratorState} {w w' : World}
variable {sec t : UInt32} {c : Bytes} {m : Buffer nameBytes} {n n' : FatName}

theorem nameEquals_returned {b : Bool}
    (hr : Runs (handled (perform drive)) (nameEquals m c) w (.returned b) w') :
    (b = true ↔ rendered drive m = some c) ∧ w' = w := by
  cases hs : rendered drive m with
  | none =>
    have hf : Runs (handled (perform drive)) (nameEquals m c) w (.halted .fault) w :=
      (runs_bind _ _ _ _ _).mpr (.halted (prettyName_faults hs))
    cases (runs_deterministic _ _ hr hf nofun nofun).1
  | some s =>
    have hd : Runs (handled (perform drive)) (nameEquals m c) w (.returned (s = c)) w :=
      runs_next (prettyName_runs hs) runs_done
    obtain ⟨hb, rfl⟩ := runs_deterministic _ _ hr hd nofun nofun
    cases hb
    simp

/-- What a step of the search can do: come to the end of the directory, find the name
or leave an entry behind. -/
theorem findStep_returned {r : DirEntryIteratorState ⊕ UInt32}
    (hr : Runs (handled (perform drive)) (findStep info c st) w (.returned r) w') :
    r = .inr noSuchEntry ∨ ∃ e st',
      Runs (handled (perform drive)) (nextDirEntry info st) w (.returned (e, st')) w' ∧
      isNoMoreEntries e = false ∧
      ((Matches drive c e ∧ r = .inr (clusterToSec info e.fstClusLO)) ∨
        (¬Matches drive c e ∧ r = .inl st')) := by
  cases (runs_bind _ _ _ _ _).mp hr with
  | @next p w₁ _ _ hn hr =>
    obtain ⟨e, st'⟩ := p
    cases he : isNoMoreEntries e with
    | true =>
      simp only [he, if_true, Program.pure_eq, runs_handled_done] at hr
      exact .inl hr.1
    | false =>
      cases hd : isDirectory e with
      | false =>
        simp only [he, hd, Bool.false_eq_true, if_false, not_false_eq_true, if_true,
          Program.pure_eq, runs_handled_done] at hr
        obtain ⟨rfl, rfl⟩ := hr
        refine .inr ⟨e, st', hn, he, .inr ⟨fun hm => ?_, rfl⟩⟩
        rw [hm.1] at hd
        cases hd
      | true =>
        simp only [he, hd, Bool.false_eq_true, if_false, not_true_eq_false] at hr
        cases (runs_bind _ _ _ _ _).mp hr with
        | @next b _ _ _ hq hr =>
          obtain ⟨hb, rfl⟩ := nameEquals_returned hq
          refine .inr ⟨e, st', ?_⟩
          cases b with
          | true =>
            simp only [if_true, Program.pure_eq, runs_handled_done] at hr
            obtain ⟨rfl, rfl⟩ := hr
            exact ⟨hn, he, .inl ⟨⟨hd, hb.mp rfl⟩, rfl⟩⟩
          | false =>
            simp only [Bool.false_eq_true, if_false, Program.pure_eq, runs_handled_done] at hr
            obtain ⟨rfl, rfl⟩ := hr
            exact ⟨hn, he, .inr ⟨fun hm => Bool.false_ne_true (hb.mpr hm.2), rfl⟩⟩

/-- A search that has returned has found the first directory with the name, if its
result is not the one that stands for a failure. -/
theorem find_returned
    (hr : Runs (handled (perform drive)) (findPathSecNum info sec c) w (.returned t) w') :
    t = noSuchEntry ∨ Enters drive info sec w c t w' := by
  cases hst : newDirEntryIterator info sec with
  | none =>
    rw [findPathSecNum, hst] at hr
    exact absurd hr not_returned_halt
  | some st₀ =>
    rw [findPathSecNum, hst] at hr
    let P (o : Outcome Exit UInt32) (w' : World) : Prop := ∀ t, o = .returned t →
      t = noSuchEntry ∨ Enters drive info sec w c t w'
    have hloop : Guarantees (handled (perform drive)) (.loop (findStep info c) st₀ .done) w P := by
      refine guarantees_loop (fun st w₁ => ∃ gs, Calls drive info st₀ w gs st w₁ ∧
        ∀ g ∈ gs, ¬Matches drive c g.1) ⟨[], .start, List.forall_mem_nil _⟩
        (fun st w₁ hj o w₂ hr => ?_)
      obtain ⟨gs, hc, hne⟩ := hj
      cases o with
      | cut => exact fun _ ho => by cases ho
      | halted e => exact fun _ ho => by cases ho
      | returned r =>
        have hend (t : UInt32) (ht : t = noSuchEntry ∨ Enters drive info sec w c t w₂) :
            Guarantees (handled (perform drive)) (.done t) w₂ P := by
          refine guarantees_done.mpr ⟨(fun _ ho => by cases ho), fun t' ht' => ?_⟩
          cases ht'
          exact ht
        obtain rfl | ⟨e, st', hn, he, ⟨hm, rfl⟩ | ⟨hm, rfl⟩⟩ := findStep_returned hr
        · exact hend _ (.inl rfl)
        · refine hend _ (.inr ⟨gs.map Prod.fst, e, st', ⟨st₀, _, hst, .next hc hn he, by simp⟩,
            fun x hx => ?_, hm, rfl⟩)
          obtain ⟨g, hg, rfl⟩ := List.mem_map.mp hx
          exact hne g hg
        · refine ⟨_, .next hc hn he, fun g hg => ?_⟩
          obtain hg | hg := List.mem_append.mp hg
          · exact hne g hg
          · cases List.mem_singleton.mp hg
            exact hm
    exact hloop _ _ hr t rfl

/-- Only the name that is written as the string is equal to it. -/
theorem nameEquals_text {σ : Type} {env : Environment Call Answer σ} {w w' : σ} (h : Holds m n)
    (hr : Runs env (nameEquals m c) w (.returned true) w') : n.text = c := by
  simp only [nameEquals, prettyName, array, library, ask_bind, Program.call_bind] at hr
  obtain ⟨hc, -⟩ | ⟨outName, w₁, -, hr⟩ := hr
  · cases hc
  · cases hs : sprintFilename outName m with
    | none =>
      simp only [hs, access, Program.halt_bind] at hr
      exact absurd hr not_returned_halt
    | some outName =>
      simp only [hs, access, Program.pure_eq, Program.done_bind, sprintFilename_text h hs] at hr
      obtain ⟨hb, -⟩ := returned_done hr
      simpa using hb

/-- Wherever the names are written, compared or looked up, they are not taken for each
other. -/
structure Distinguished (n n' : FatName) : Prop where
  written : ∀ (m m' : Buffer nameBytes) (a a' o o' : Buffer (nameBytes + 1)), Holds m n →
    Holds m' n' → sprintFilename a m = some o → sprintFilename a' m' = some o' →
    o.string start = o'.string start → n = n'
  compared : ∀ {σ σ' : Type} (env : Environment Call Answer σ) (env' : Environment Call Answer σ')
    (c : Bytes) (m m' : Buffer nameBytes) (w w₁ : σ) (w' w₁' : σ'), Holds m n → Holds m' n' →
    Runs env (nameEquals m c) w (.returned true) w₁ →
    Runs env' (nameEquals m' c) w' (.returned true) w₁' → n = n'
  entered : ∀ (drive : Drive) (info : FatInfo) (sec t : UInt32) (w w' : World),
    Runs (handled (perform drive)) (findPathSecNum info sec n.text) w (.returned t) w' →
    t = noSuchEntry ∨ ∃ es e st, Lists drive info sec w (es ++ [e]) st w' ∧
      isDirectory e = true ∧ t = clusterToSec info e.fstClusLO ∧ (Holds e.name n' → n = n')

theorem names_distinguished (hn : n.Plain) (hn' : n'.Plain) : Distinguished n n' where
  written m m' a a' o o' h h' ho ho' he := by
    rw [sprintFilename_text h ho, sprintFilename_text h' ho'] at he
    exact text_injective hn hn' (Option.some.inj he)
  compared env env' c m m' w w₁ w' w₁' h h' hr hr' :=
    text_injective hn hn' ((nameEquals_text h hr).trans (nameEquals_text h' hr').symm)
  entered drive info sec t w w' hr := by
    obtain ht | ⟨es, e, st, hl, -, hm, ht⟩ := find_returned hr
    · exact .inl ht
    · refine .inr ⟨es, e, st, hl, hm.1, ht, fun h => ?_⟩
      obtain ⟨o, ho, hs⟩ := Option.bind_eq_some_iff.mp hm.2
      rw [sprintFilename_text h ho] at hs
      exact text_injective hn hn' (Option.some.inj hs).symm

theorem names_distinguished_short :
    Distinguished ⟨ascii "A", ascii "B", by decide, by decide, by decide, by decide, by decide⟩
      ⟨ascii "AB", [], by decide, by decide, by decide, by decide, by decide⟩ :=
  names_distinguished (by decide) (by decide)

end Ti3.Fat.Lookup
