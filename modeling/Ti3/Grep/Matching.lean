import Ti3.Grep.PseudoGrep
import Ti3.Library.Determinism
import Ti3.Library.Lines
import Ti3.Library.Search

namespace Ti3.Grep.Matching

open Library.CString Library.Interaction Library.Rules Library.Determinism
open Library.Lines Library.Search PseudoGrep

def lf : UInt8 := 10

/-- A stream that can be rewound, with standard output; `refused` counts the
calls of `fseek` that failed. -/
structure World where
  content : Bytes
  pos : Nat
  out : Bytes
  refused : Nat

def World.start (content : Bytes) : World := ⟨content, 0, [], 0⟩

def perform (w : World) : (c : Call) → Answer c × World
  | .fgetc => match w.content[w.pos]? with
    | none => (eof, w)
    | some b => (b.toNat, { w with pos := w.pos + 1 })
  | .fseek offset =>
    if 0 ≤ w.pos + offset then (0, { w with pos := (w.pos + offset).toNat })
    else (-1, { w with refused := w.refused + 1 })
  | .ferror => (false, w)
  | .fputc c => ((UInt8.ofInt c).toNat, { w with out := w.out ++ [UInt8.ofInt c] })
  | .printf text => (text.length, { w with out := w.out ++ text })

/-- The lines of a text that contain the pattern. -/
def matching (pattern content : Bytes) : Bytes :=
  ((lines lf content).filter (fun l => pattern <:+: l)).flatten

/-- Non-empty, of ASCII characters other than newline. -/
structure Plain (pattern : Bytes) : Prop where
  nonempty : pattern ≠ []
  chars : ∀ b ∈ pattern, 1 ≤ b ∧ b ≤ 127
  oneLine : lf ∉ pattern

variable {pattern content l rest : Bytes} {w : World} {s : State}

theorem matching_line (hp : Plain pattern) (hl : IsLine lf l rest) :
    matching pattern (l ++ rest) =
      (if pattern <:+: l then l else []) ++ matching pattern rest := by
  by_cases hne : l = []
  · subst hne
    have hn : ¬ pattern <:+: [] := fun h => hp.nonempty (List.infix_nil.mp h)
    rw [if_neg hn]
    rfl
  · rw [matching, lines_line hl hne]
    by_cases hm : pattern <:+: l
    · simp [hm, matching]
    · simp [hm, matching]

/-- The search stands in the line `u ++ v`, behind as many bytes of `v` as have
matched. It counts from the start of this line, or from the start of the next
one when a match has been cut off by the end of the line. -/
structure At (pattern content : Bytes) (s : State) (w : World) (pre u v rest : Bytes) : Prop where
  text : content = pre ++ (u ++ (v ++ rest))
  pos : w.pos = pre.length + u.length + s.matchedChars
  line : IsLine lf v rest
  inside : lf ∉ u
  missed : NotBefore pattern u v
  matched : pattern.take s.matchedChars <+: v
  short : s.matchedChars < pattern.length
  start : s.fromLinestart = u.length + s.matchedChars ∨
    (s.fromLinestart = s.matchedChars - v.length ∧ v.length < pattern.length)
  printed : w.out ++ matching pattern (u ++ (v ++ rest)) = matching pattern content

/-- The invariant of the search. -/
def Searching (pattern content : Bytes) (s : State) (w : World) : Prop :=
  w.content = content ∧ w.refused = 0 ∧ ∃ pre u v rest, At pattern content s w pre u v rest

/-- How far the search has come, and how much of the pattern is left here. -/
def remaining (pattern content : Bytes) (s : State) (w : World) : Nat :=
  (content.length - (w.pos - s.matchedChars)) * (pattern.length + 1) +
    (pattern.length - s.matchedChars)

/-- At the start of a line. -/
theorem searching_line (hp : Plain pattern) (pre : Bytes) (hc : w.content = content)
    (hr : w.refused = 0) (ht : content = pre ++ rest) (hpos : w.pos = pre.length)
    (hout : w.out ++ matching pattern rest = matching pattern content) :
    Searching pattern content ⟨0, 0⟩ w := by
  obtain ⟨v, rest, rfl, hl, _⟩ := exists_line lf rest
  refine ⟨hc, hr, pre, [], v, rest, ht, by simp [hpos], hl, List.not_mem_nil, notBefore_nil _ _,
    List.nil_prefix, List.length_pos_of_ne_nil hp.nonempty, .inl rfl, hout⟩

/-- One byte further in the same line. -/
theorem at_shift {pre u v : Bytes} {c : UInt8} {w' : World} (fromLinestart : Int)
    (ha : At pattern content s w pre u (c :: v) rest) (hp : ¬ pattern <+: c :: v) (hc : c ≠ lf)
    (hpos : w'.pos + s.matchedChars = w.pos + 1) (hout : w'.out = w.out)
    (hfrom : fromLinestart = s.fromLinestart + 1 - s.matchedChars ∨
      (fromLinestart = - v.length ∧ v.length < pattern.length)) :
    At pattern content ⟨fromLinestart, 0⟩ w' pre (u ++ [c]) v rest where
  text := by rw [ha.text, List.append_assoc]; rfl
  pos := by
    have hw := ha.pos
    simp only [List.length_append, List.length_singleton]
    omega
  line := (isLine_cons hc).mp ha.line
  inside := by simp [ha.inside, Ne.symm hc]
  missed := notBefore_snoc ha.missed hp
  matched := List.nil_prefix
  short := Nat.lt_of_le_of_lt (Nat.zero_le _) ha.short
  start := by
    simp only [List.length_append, List.length_singleton]
    obtain h | ⟨h, hl⟩ := hfrom
    · obtain h' | ⟨h', hl⟩ := ha.start
      · exact .inl (by simp; omega)
      · rw [List.length_cons] at h' hl
        exact .inr ⟨by simp; omega, by omega⟩
    · exact .inr ⟨by simp [h], hl⟩
  printed := by rw [hout, List.append_assoc]; exact ha.printed

theorem fgetc_none (h : w.content[w.pos]? = none) : perform w .fgetc = (eof, w) := by
  simp only [perform, h]

theorem fgetc_some {c : UInt8} (h : w.content[w.pos]? = some c) :
    perform w .fgetc = ((c.toNat : Int), { w with pos := w.pos + 1 }) := by
  simp only [perform, h]

theorem fgetc_end (hp : w.pos = w.content.length) : perform w .fgetc = (eof, w) :=
  fgetc_none (List.getElem?_eq_none (Nat.le_of_eq hp.symm))

theorem fgetc_byte {pre : Bytes} {b : UInt8} (hc : w.content = pre ++ b :: l)
    (hp : w.pos = pre.length) :
    perform w .fgetc = ((b.toNat : Int), { w with pos := w.pos + 1 }) := by
  apply fgetc_some
  rw [hc, hp, List.getElem?_append_right (Nat.le_refl _), Nat.sub_self]
  rfl

theorem toNat_ne_eof (b : UInt8) : (b.toNat : Int) ≠ eof := by
  simp only [eof]
  omega

theorem toNat_eq_newline {b : UInt8} : (b.toNat : Int) = newline ↔ b = lf := by
  rw [newline, lf, ← UInt8.toNat_inj]
  simp only [UInt8.reduceToNat]
  omega

theorem ofInt_toNat (b : UInt8) : UInt8.ofInt b.toNat = b := by
  have hm : ((b.toNat : Int) % 2 ^ 8).toNat = b.toNat := by
    have hb := b.toNat_lt
    omega
  rw [UInt8.ofInt, hm, UInt8.ofNat_toNat]

theorem printStep_eq (u : Unit) : printStep u = .call .fgetc (fun lineChar =>
    if lineChar = eof then .done (.inr ())
    else .call (.fputc lineChar) (fun written =>
      if written = eof then err outputError "Error writing to stdout"
      else if lineChar = newline then .done (.inr ()) else .done (.inl ()))) := rfl

/-- The line that the stream stands at is copied to standard output. -/
theorem print_runs (pre : Bytes) (hc : w.content = pre ++ (l ++ rest)) (hp : w.pos = pre.length)
    (hl : IsLine lf l rest) :
    Iterates (fun u => Runs (handled perform) (printStep u)) () w (.returned ())
      { w with pos := w.pos + l.length, out := w.out ++ l } := by
  induction l generalizing w pre with
  | nil =>
    have hr : rest = [] := hl
    subst hr
    refine .stop ?_
    rw [printStep_eq]
    apply runs_call (fgetc_end (by simp [hc, hp]))
    rw [if_pos rfl, List.append_nil]
    exact runs_done
  | cons b l ih =>
    have hread := fgetc_byte hc hp
    have hput : perform { w with pos := w.pos + 1 } (.fputc b.toNat) =
        ((b.toNat : Int), { w with pos := w.pos + 1, out := w.out ++ [b] }) := by
      simp only [perform, ofInt_toNat]
    by_cases hb : b = lf
    · have hnil := (isLine_end hb).mp hl
      refine .stop ?_
      rw [printStep_eq]
      apply runs_call hread
      rw [if_neg (toNat_ne_eof b)]
      apply runs_call hput
      rw [if_neg (toNat_ne_eof b), if_pos (toNat_eq_newline.mpr hb), hnil]
      exact runs_done
    · have hrest := ih (w := { w with pos := w.pos + 1, out := w.out ++ [b] }) (pre ++ [b])
        (by simp [hc]) (by simp [hp]) ((isLine_cons hb).mp hl)
      rw [List.append_assoc, Nat.add_assoc, Nat.add_comm 1] at hrest
      refine .next ?_ hrest
      rw [printStep_eq]
      apply runs_call hread
      rw [if_neg (toNat_ne_eof b)]
      apply runs_call hput
      rw [if_neg (toNat_ne_eof b), if_neg (fun h => hb (toNat_eq_newline.mp h))]
      exact runs_done

section step

variable {pre u v : Bytes}

theorem take_plain (hp : Plain pattern) (i : Nat) : lf ∉ pattern.take i :=
  fun h => hp.oneLine (List.mem_of_mem_take h)

theorem patternChar_eq {i : Nat} (hi : i < pattern.length) :
    patternChar pattern i = .done (plainChar pattern[i]) := by
  have hget : (pattern ++ [0])[i]? = some pattern[i] := by
    rw [List.getElem?_append_left hi, List.getElem?_eq_getElem hi]
  simp only [patternChar, hget, Program.pure_eq]

/-- The next char of the pattern. -/
theorem exists_char {i : Nat} (hp : Plain pattern) (hi : i < pattern.length) :
    ∃ b, pattern.take (i + 1) = pattern.take i ++ [b] ∧ b ≠ lf ∧
      patternChar pattern i = .done (b.toNat : Int) := by
  refine ⟨pattern[i], ?_, ?_, ?_⟩
  · rw [List.take_add_one, List.getElem?_eq_getElem hi]
    rfl
  · exact fun h => hp.oneLine (h ▸ List.getElem_mem hi)
  · rw [patternChar_eq hi, plainChar_of_le (hp.chars _ (List.getElem_mem hi)).2]

/-- The end of the text. -/
theorem finish (hp : Plain pattern) (ha : At pattern content s w pre u v rest)
    (hv : v = pattern.take s.matchedChars) :
    rest = [] ∧ w.out = matching pattern content := by
  have hlf : lf ∉ v := hv ▸ take_plain hp _
  have hr : rest = [] := by
    have hl := ha.line
    rw [← List.append_nil v, isLine_append hlf] at hl
    exact hl
  have hlen : v.length < pattern.length := by
    have hs := ha.short
    rw [hv, List.length_take]
    omega
  have hline : IsLine lf (u ++ v) [] := by
    rw [isLine_append ha.inside, ← hr]
    exact ha.line
  have hout := ha.printed
  rw [hr, ← List.append_assoc, matching_line hp hline, if_neg (not_occurs ha.missed hlen)] at hout
  exact ⟨hr, by simpa [matching, lines] using hout⟩

/-- The end of a line without an occurrence. -/
theorem skip_line (hp : Plain pattern) (ha : At pattern content s w pre u (lf :: v) rest) :
    v = [] ∧ w.out ++ matching pattern rest = matching pattern content := by
  have hnil : v = [] := (isLine_end rfl).mp ha.line
  subst hnil
  have hno : ¬ pattern <+: [lf] := by
    intro h
    obtain ⟨b, q, hb⟩ := List.exists_cons_of_ne_nil hp.nonempty
    rw [hb, List.cons_prefix_cons] at h
    exact hp.oneLine (by rw [hb, h.1]; exact List.mem_cons_self)
  have hmissed := not_occurs (notBefore_snoc ha.missed hno) (List.length_pos_of_ne_nil hp.nonempty)
  rw [List.append_nil] at hmissed
  have hline : IsLine lf (u ++ [lf]) rest := (isLine_append ha.inside).mpr ha.line
  have hout := ha.printed
  rw [← List.append_assoc, matching_line hp hline, if_neg hmissed, List.nil_append] at hout
  exact ⟨rfl, hout⟩

theorem remaining_lt {n k p p' x y : Nat} (h : p < p') (hn : p < n) (hx : x ≤ k) :
    (n - p') * (k + 1) + x < (n - p) * (k + 1) + y := by
  have hle : (n - p' + 1) * (k + 1) ≤ (n - p) * (k + 1) := Nat.mul_le_mul_right _ (by omega)
  rw [Nat.add_mul, Nat.one_mul] at hle
  omega

theorem fseek_back {j : Nat} {k : Int} (h : (w.pos : Int) + k = j) :
    perform w (.fseek k) = (0, { w with pos := j }) := by
  simp only [perform, h, Int.toNat_natCast]
  exact if_pos (Int.natCast_nonneg j)

theorem printLine_runs {k : Int} (hc : w.content = pre ++ (l ++ rest)) (hl : IsLine lf l rest)
    (hk : (w.pos : Int) - k = pre.length) :
    Runs (handled perform) (printLine k) w (.returned ⟨0, 0⟩)
      { w with pos := pre.length + l.length, out := w.out ++ l } := by
  simp only [printLine, fseek, ferror, library, ask_bind]
  apply runs_call (fseek_back hk)
  rw [if_neg (show (0 : Int) ≠ -1 by decide)]
  exact .next (print_runs pre hc rfl hl) (runs_call rfl runs_done)

/-- The search goes on from where a program ends, further on than from `s`. -/
def Advances (pattern content : Bytes) (s : State) (w : World) (p : Process State) (w₁ : World) :
    Prop :=
  ∃ s' w', Runs (handled perform) p w₁ (.returned s') w' ∧ Searching pattern content s' w' ∧
    remaining pattern content s' w' < remaining pattern content s w

/-- A whole match: the line is printed, and the search goes on behind it. -/
theorem match_line (hp : Plain pattern) (ha : At pattern content s w pre u v rest)
    (hc : w.content = content) (hr : w.refused = 0) (hv : pattern <+: v)
    (hm : s.matchedChars + 1 = pattern.length) :
    Advances pattern content s w (printLine (s.fromLinestart + 1)) { w with pos := w.pos + 1 } := by
  have hlen := hv.length_le
  have hstart := ha.start.resolve_right (fun h => by omega)
  have hpos := ha.pos
  have hline : IsLine lf (u ++ v) rest := (isLine_append ha.inside).mpr ha.line
  have htext : content = pre ++ ((u ++ v) ++ rest) := by
    rw [List.append_assoc]
    exact ha.text
  refine ⟨_, _, printLine_runs (hc.trans htext) hline ?_, ?_, ?_⟩
  · simp only [hstart]
    omega
  · have hout := ha.printed
    rw [← List.append_assoc, matching_line hp hline,
      if_pos (occurs_behind hv u), ← List.append_assoc] at hout
    exact searching_line hp (pre ++ (u ++ v)) hc hr (htext.trans (by simp)) (by simp) hout
  · have hcontent := congrArg List.length ha.text
    simp only [List.length_append] at hcontent
    refine remaining_lt ?_ ?_ (Nat.sub_le _ _)
    · simp only [List.length_append]
      omega
    · omega

/-- One char further in a match. -/
theorem match_next {c : UInt8} (ha : At pattern content s w pre u v rest)
    (hv : pattern.take s.matchedChars ++ [c] <+: v)
    (ht : pattern.take (s.matchedChars + 1) = pattern.take s.matchedChars ++ [c])
    (hm : s.matchedChars + 1 ≠ pattern.length) :
    At pattern content ⟨s.fromLinestart + 1, s.matchedChars + 1⟩ { w with pos := w.pos + 1 }
      pre u v rest where
  text := ha.text
  pos := by
    have hpos := ha.pos
    simp only
    omega
  line := ha.line
  inside := ha.inside
  missed := ha.missed
  matched := by
    rw [ht]
    exact hv
  short := Nat.lt_of_le_of_ne ha.short hm
  start := by
    have hstart := ha.start
    simp only
    omega
  printed := ha.printed

theorem charMatches_advances {t : Bytes} {c : UInt8} (hp : Plain pattern)
    (ha : At pattern content s w pre u (pattern.take s.matchedChars ++ c :: t) rest)
    (hc : w.content = content) (hr : w.refused = 0)
    (ht : pattern.take (s.matchedChars + 1) = pattern.take s.matchedChars ++ [c]) :
    Advances pattern content s w (charMatches pattern.length s (s.fromLinestart + 1))
      { w with pos := w.pos + 1 } := by
  have hv : pattern.take s.matchedChars ++ [c] <+: pattern.take s.matchedChars ++ c :: t :=
    ⟨t, by simp⟩
  by_cases hm : s.matchedChars + 1 = pattern.length
  · rw [← ht, hm, List.take_length] at hv
    rw [charMatches, if_pos hm]
    exact match_line hp ha hc hr hv hm
  · rw [charMatches, if_neg hm]
    refine ⟨_, _, runs_done, ⟨hc, hr, pre, u, _, rest, match_next ha hv ht hm⟩, ?_⟩
    have hlt := ha.short
    simp only [remaining, Nat.add_sub_add_right]
    omega

/-- The search is taken up again behind the first char that matched, or goes on
with the next char. -/
theorem charMismatches_advances {t : Bytes} {c : UInt8} (hp : Plain pattern)
    (ha : At pattern content s w pre u (pattern.take s.matchedChars ++ c :: t) rest)
    (hc : w.content = content) (hr : w.refused = 0)
    (hno : ¬ pattern <+: pattern.take s.matchedChars ++ c :: t) :
    Advances pattern content s w
      (charMismatches s (if (c.toNat : Int) = newline then 0 else s.fromLinestart + 1))
      { w with pos := w.pos + 1 } := by
  have htake : (pattern.take s.matchedChars).length = s.matchedChars := by
    rw [List.length_take, Nat.min_eq_left (Nat.le_of_lt ha.short)]
  have hlen := congrArg List.length ha.text
  simp only [List.length_append, List.length_cons, htake] at hlen
  have hpos := ha.pos
  have hlt {k : Int} {j : Nat} (hj : pre.length + u.length < j) :
      remaining pattern content ⟨k, 0⟩ { w with pos := j } < remaining pattern content s w := by
    refine remaining_lt ?_ ?_ (Nat.sub_le _ _)
    · simp only
      omega
    · omega
  simp only [charMismatches, fseek, library, ask_bind]
  by_cases hm : s.matchedChars > 0
  · obtain ⟨d, m, hd⟩ := List.exists_cons_of_length_pos (htake.symm ▸ hm)
    have hdm : lf ∉ d :: m := hd ▸ take_plain hp _
    have hdlf : d ≠ lf := fun h => hdm (h ▸ List.mem_cons_self)
    have hml : m.length + 1 = s.matchedChars := by rw [← htake, hd, List.length_cons]
    rw [hd, List.cons_append] at ha hno
    have hback : ((w.pos + 1 : Nat) : Int) + -s.matchedChars =
        (pre.length + u.length + 1 : Nat) := by omega
    refine ⟨_, { w with pos := pre.length + u.length + 1 }, ?_,
      ⟨hc, hr, pre, _, _, rest, at_shift ((if (c.toNat : Int) = newline then 0
        else s.fromLinestart + 1) - s.matchedChars) ha hno hdlf (by simp only; omega) rfl ?_⟩,
      hlt (Nat.lt_succ_self _)⟩
    · rw [if_pos hm]
      apply runs_call (fseek_back hback)
      rw [if_neg (show (0 : Int) ≠ -1 by decide)]
      exact runs_done
    · by_cases hcn : c = lf
      · -- The match has been cut off: `from_linestart` is negative from now on.
        have hline : IsLine lf (c :: t) rest := (isLine_append hdm).mp ha.line
        have hnil := (isLine_end hcn).mp hline
        rw [if_pos (toNat_eq_newline.mpr hcn), hnil, List.length_append, List.length_singleton]
        have hshort := ha.short
        exact .inr ⟨by omega, by omega⟩
      · rw [if_neg (fun h => hcn (toNat_eq_newline.mp h))]
        exact .inl rfl
  · have hzero : s.matchedChars = 0 := Nat.eq_zero_of_not_pos hm
    rw [hzero, List.take_zero, List.nil_append] at ha hno
    rw [if_neg hm, hzero]
    by_cases hcn : c = lf
    · subst hcn
      obtain ⟨rfl, hout⟩ := skip_line hp ha
      rw [if_pos (toNat_eq_newline.mpr rfl)]
      refine ⟨⟨0, 0⟩, _, runs_done, searching_line hp (pre ++ (u ++ [lf])) hc hr ?_ ?_ hout,
        hlt (by omega)⟩
      · rw [ha.text]
        simp
      · simp only [List.length_append, List.length_singleton]
        omega
    · rw [if_neg (fun h => hcn (toNat_eq_newline.mp h))]
      exact ⟨_, _, runs_done, ⟨hc, hr, pre, _, _, rest, at_shift _ ha hno hcn (by simp only; omega)
        rfl (.inl (by omega))⟩, hlt (by omega)⟩

/-- One round of the search goes on, or finds the end of the text. -/
theorem grepStep_progress (hp : Plain pattern) (hs : Searching pattern content s w) :
    (∃ s' w', Runs (handled perform) (grepStep pattern pattern.length s) w
        (.returned (.inl s')) w' ∧ Searching pattern content s' w' ∧
          remaining pattern content s' w' < remaining pattern content s w) ∨
      ∃ e w', Runs (handled perform) (grepStep pattern pattern.length s) w
        (.returned (.inr e)) w' ∧ w'.out = matching pattern content ∧ w'.refused = 0 := by
  obtain ⟨hc, hr, pre, u, v, rest, ha⟩ := hs
  obtain ⟨t, rfl⟩ := ha.matched
  have hbefore : w.content = (pre ++ (u ++ pattern.take s.matchedChars)) ++ (t ++ rest) := by
    rw [hc, ha.text]
    simp
  have hpos : w.pos = (pre ++ (u ++ pattern.take s.matchedChars)).length := by
    have hshort := ha.short
    rw [ha.pos]
    simp only [List.length_append, List.length_take]
    omega
  obtain ⟨b, htake, hb, hchar⟩ := exists_char hp ha.short
  simp only [grepStep, fgetc, library, ask_bind, hchar, Program.done_bind]
  cases t with
  | nil =>
    obtain ⟨rfl, hout⟩ := finish hp ha (List.append_nil _)
    refine .inr ⟨(), w, runs_call (fgetc_end (by rw [hpos, hbefore]; simp)) ?_, hout, hr⟩
    rw [if_pos rfl]
    exact runs_done
  | cons c t =>
    refine .inl ?_
    have hread := fgetc_byte hbefore hpos
    have heof := toNat_ne_eof c
    by_cases hcb : c = b
    · subst hcb
      obtain ⟨s', w', hrun, hs', hlt⟩ := charMatches_advances hp ha hc hr htake
      refine ⟨s', w', runs_call hread ?_, hs', hlt⟩
      rw [if_neg heof, if_pos rfl, if_neg (fun h => hb (toNat_eq_newline.mp h))]
      exact runs_next hrun runs_done
    · have hno : ¬ pattern <+: pattern.take s.matchedChars ++ c :: t := by
        intro h
        have hb' := (List.take_prefix (s.matchedChars + 1) pattern).trans h
        rw [htake, List.prefix_append_right_inj, List.cons_prefix_cons] at hb'
        exact hcb hb'.1.symm
      obtain ⟨s', w', hrun, hs', hlt⟩ := charMismatches_advances hp ha hc hr hno
      refine ⟨s', w', runs_call hread ?_, hs', hlt⟩
      rw [if_neg heof, if_neg (fun h => hcb (UInt8.toNat_inj.mp (Int.natCast_inj.mp h)))]
      exact runs_next hrun runs_done

end step

/-- The search ends without a failing `fseek`, and prints the lines that contain
the pattern, in order and each once. -/
theorem pseudoGrep_matching (hp : Plain pattern) (content : Bytes) :
    Yields (handled perform) (pseudoGrep pattern pattern.length) (.start content)
      (fun _ w => w.out = matching pattern content ∧ w.refused = 0) := by
  have hstart : Searching pattern content ⟨0, 0⟩ (.start content) :=
    searching_line hp [] rfl rfl rfl rfl rfl
  obtain ⟨e, w, hloop, hq⟩ := iterates_total (remaining pattern content)
    (fun s w hs => grepStep_progress (s := s) (w := w) hp hs) hstart
  have hrun : Runs (handled perform) (pseudoGrep pattern pattern.length) (.start content)
      (.returned ()) w := by
    refine .next hloop ?_
    simp only [ferror, library, ask_bind]
    exact runs_call rfl runs_done
  exact yields_of_runs hrun hq

theorem pseudoGrep_matching_overlap :
    Yields (handled perform) (pseudoGrep (ascii "aab") (ascii "aab").length)
      (.start (ascii "caaab\naa\nb\naab"))
      (fun _ w => w.out = matching (ascii "aab") (ascii "caaab\naa\nb\naab") ∧ w.refused = 0) :=
  pseudoGrep_matching ⟨by decide, by decide +kernel, by decide⟩ _

/-- Overlapping prefixes, a match cut off by a newline and a last line without
one. -/
example : matching (ascii "aab") (ascii "caaab\naa\nb\naab") = ascii "caaab\naab" := by decide

end Ti3.Grep.Matching
