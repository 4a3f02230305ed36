import Ti3.Grep.Matching

namespace Ti3.Grep.HighBytes

open Library.CString Library.Interaction Library.Rules Library.Determinism Library.Lines
open PseudoGrep Matching

variable {pattern content : Bytes} {w : World} {s : State} {b : UInt8} {k : Nat}

/-- The search gets as far as the char at `k` of the pattern and never past it. -/
structure Held (k : Nat) (content : Bytes) (s : State) (w : World) : Prop where
  text : w.content = content
  silent : w.out = []
  before : s.matchedChars ≤ k
  read : s.matchedChars ≤ w.pos

/-- No byte that `fgetc` delivers is the value of a char from 0x80 on. -/
theorem toNat_ne_plainChar (c : UInt8) (hb : 128 ≤ b) : (c.toNat : Int) ≠ plainChar b := by
  have hneg := plainChar_neg hb
  omega

/-- The chars in front of `k` may match, and the pattern goes on behind them. -/
theorem charMatches_held {fromLinestart : Int} (hk : k < pattern.length)
    (hh : Held k content s w) (hn : s.matchedChars ≠ k) :
    ∃ s', Runs (handled perform) (charMatches pattern.length s fromLinestart)
        { w with pos := w.pos + 1 } (.returned s') { w with pos := w.pos + 1 } ∧
      Held k content s' { w with pos := w.pos + 1 } ∧
      remaining pattern content s' { w with pos := w.pos + 1 } < remaining pattern content s w := by
  have hbefore := hh.before
  have hm : s.matchedChars + 1 ≠ pattern.length := by omega
  rw [charMatches, if_neg hm]
  refine ⟨⟨fromLinestart, s.matchedChars + 1⟩, runs_done, ⟨hh.text, hh.silent, ?_, ?_⟩, ?_⟩
  · simp only
    omega
  · exact Nat.succ_le_succ hh.read
  · simp only [remaining, Nat.add_sub_add_right]
    omega

theorem charMismatches_held {fromLinestart : Int} (hh : Held k content s w)
    (hp : w.pos < content.length) :
    ∃ s' w', Runs (handled perform) (charMismatches s fromLinestart)
        { w with pos := w.pos + 1 } (.returned s') w' ∧
      Held k content s' w' ∧ remaining pattern content s' w' < remaining pattern content s w := by
  have hread := hh.read
  simp only [charMismatches, PseudoGrep.fseek, library, ask_bind]
  by_cases hm : s.matchedChars > 0
  · have hback : ((w.pos + 1 : Nat) : Int) + -s.matchedChars =
        (w.pos + 1 - s.matchedChars : Nat) := by omega
    refine ⟨⟨fromLinestart - s.matchedChars, 0⟩, { w with pos := w.pos + 1 - s.matchedChars },
      ?_, ⟨hh.text, hh.silent, Nat.zero_le _, Nat.zero_le _⟩, ?_⟩
    · rw [if_pos hm]
      apply runs_call (fseek_back hback)
      rw [if_neg (show (0 : Int) ≠ -1 by decide)]
      exact runs_done
    · apply remaining_lt
      · simp only
        omega
      · omega
      · exact Nat.sub_le _ _
  · have hzero : s.matchedChars = 0 := Nat.eq_zero_of_not_pos hm
    rw [if_neg hm]
    refine ⟨⟨fromLinestart, s.matchedChars⟩, _, runs_done,
      ⟨hh.text, hh.silent, hh.before, Nat.le_succ_of_le hread⟩, ?_⟩
    apply remaining_lt
    · simp only
      omega
    · omega
    · exact Nat.sub_le _ _

theorem grepStep_held (hk : pattern[k]? = some b) (hb : 128 ≤ b) (hh : Held k content s w) :
    (∃ s' w', Runs (handled perform) (grepStep pattern pattern.length s) w
        (.returned (.inl s')) w' ∧ Held k content s' w' ∧
          remaining pattern content s' w' < remaining pattern content s w) ∨
      ∃ e w', Runs (handled perform) (grepStep pattern pattern.length s) w
        (.returned (.inr e)) w' ∧ w'.out = [] := by
  obtain ⟨hlen, hbk⟩ := List.getElem?_eq_some_iff.mp hk
  have hshort := Nat.lt_of_le_of_lt hh.before hlen
  have hchar := patternChar_eq hshort
  simp only [grepStep, PseudoGrep.fgetc, library, ask_bind, hchar, Program.done_bind]
  cases hc : w.content[w.pos]? with
  | none =>
    refine .inr ⟨(), w, runs_call (fgetc_none hc) ?_, hh.silent⟩
    rw [if_pos rfl]
    exact runs_done
  | some c =>
    refine .inl ?_
    have heof := toNat_ne_eof c
    have hp : w.pos < content.length := by
      rw [← hh.text]
      exact (List.getElem?_eq_some_iff.mp hc).choose
    by_cases he : (c.toNat : Int) = plainChar pattern[s.matchedChars]
    · -- The char at `k` is negative, so this is one in front of it.
      have hne : s.matchedChars ≠ k := by
        intro hs
        simp only [hs, hbk] at he
        exact toNat_ne_plainChar c hb he
      obtain ⟨s', hrun, hh', hlt⟩ := charMatches_held hlen hh hne
      refine ⟨s', _, runs_call (fgetc_some hc) ?_, hh', hlt⟩
      rw [if_neg heof, if_pos he]
      exact runs_next hrun runs_done
    · obtain ⟨s', w', hrun, hh', hlt⟩ := charMismatches_held hh hp
      refine ⟨s', w', runs_call (fgetc_some hc) ?_, hh', hlt⟩
      rw [if_neg heof, if_neg he]
      exact runs_next hrun runs_done

/-- With a byte from 0x80 on in the pattern the search ends and prints nothing. -/
theorem pseudoGrep_silent (hb : ∃ b ∈ pattern, 128 ≤ b) (content : Bytes) :
    Yields (handled perform) (pseudoGrep pattern pattern.length) (.start content)
      (fun _ w => w.out = []) := by
  obtain ⟨b, hm, hb⟩ := hb
  obtain ⟨k, hk⟩ := List.mem_iff_getElem?.mp hm
  have hstart : Held k content ⟨0, 0⟩ (.start content) :=
    ⟨rfl, rfl, Nat.zero_le _, Nat.zero_le _⟩
  obtain ⟨e, w, hloop, hq⟩ := iterates_total (remaining pattern content)
    (fun s w hh => grepStep_held (s := s) (w := w) hk hb hh) hstart
  have hrun : Runs (handled perform) (pseudoGrep pattern pattern.length) (.start content)
      (.returned ()) w := by
    refine .next hloop ?_
    simp only [PseudoGrep.ferror, library, ask_bind]
    exact runs_call rfl runs_done
  exact yields_of_runs hrun hq

/-- Every line of the stream that contains the pattern is printed. -/
def Prints (pattern content : Bytes) : Prop :=
  Yields (handled perform) (pseudoGrep pattern pattern.length) (.start content)
    (fun _ w => ∀ l ∈ lines lf content, pattern <:+: l → l <:+: w.out)

theorem prints_of_missing (hb : ∃ b ∈ pattern, 128 ≤ b)
    (hm : ∀ l ∈ lines lf content, ¬ pattern <:+: l) : Prints pattern content := by
  obtain ⟨⟨a, w, hr⟩, _⟩ := pseudoGrep_silent hb content
  exact yields_of_runs hr (fun l hl hp => absurd hp (hm l hl))

theorem missing_of_prints (hb : ∃ b ∈ pattern, 128 ≤ b) (h : Prints pattern content) :
    ∀ l ∈ lines lf content, ¬ pattern <:+: l := by
  intro l hl hp
  obtain ⟨a, w, hr⟩ := h.1
  have hout := yields_returned (pseudoGrep_silent hb content) hr
  have hline := yields_returned h hr l hl hp
  obtain ⟨b, hm, _⟩ := hb
  rw [hout, List.infix_nil] at hline
  rw [hline, List.infix_nil] at hp
  rw [hp] at hm
  exact List.not_mem_nil hm

/-- The chars of the pattern are compared as signed values with the bytes of
the stream, which are not: one byte from 0x80 on, and no line is found. -/
theorem prints_iff (pattern content : Bytes) (hb : ∃ b ∈ pattern, 128 ≤ b) :
    Prints pattern content ↔ ∀ l ∈ lines lf content, ¬ pattern <:+: l :=
  ⟨missing_of_prints hb, prints_of_missing hb⟩

/-- The two bytes of `ä`. -/
def umlaut : Bytes := [0xc3, 0xa4]

theorem prints_iff_umlaut : Prints umlaut (umlaut ++ [lf]) ↔
    ∀ l ∈ lines lf (umlaut ++ [lf]), ¬ umlaut <:+: l :=
  prints_iff umlaut (umlaut ++ [lf]) ⟨0xc3, by decide, by decide⟩

theorem umlaut_missed : lf ∉ umlaut ∧ (∃ b ∈ umlaut, 128 ≤ b) ∧ ¬ Prints umlaut (umlaut ++ [lf]) :=
  ⟨by decide, ⟨0xc3, by decide, by decide⟩, fun h =>
    missing_of_prints ⟨0xc3, by decide, by decide⟩ h (umlaut ++ [lf]) (by decide)
      (List.prefix_append _ _).isInfix⟩

end Ti3.Grep.HighBytes
