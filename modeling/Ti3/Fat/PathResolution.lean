import Ti3.Fat.Table
import Ti3.Fat.Loops

namespace Ti3.Fat.PathResolution

open Library.CString Library.CMemory Library.Interaction Library.Determinism Library.Cursor
open Library.Rules DriveLs Image Iterator Table Loops

/-- The names in a path, each of which has a delimiter behind it. -/
def components (path : Bytes) : List Bytes := (path.splitOn pathDelim).dropLast

def Terminated (path : Bytes) : Prop := path = [] ∨ path.getLast? = some pathDelim

variable {drive : Drive} {info : FatInfo} {st st' : DirEntryIteratorState} {w w' : World}
variable {sec t : UInt32} {c path : Bytes} {cs : List Bytes} {e : FatDirInfo}
variable {gs : List (FatDirInfo × DirEntryIteratorState)}

theorem components_cons (hc : pathDelim ∉ c) (s : Bytes) :
    components (c ++ pathDelim :: s) = c :: components s := by
  rw [components, List.splitOn_append_cons_self_of_not_mem hc,
    List.dropLast_cons_of_ne_nil (List.splitOn_ne_nil _ _), components]

/-- A path is empty, or starts with a component. -/
theorem terminated_cases (h : Terminated path) : path = [] ∨
    ∃ c s, path = c ++ pathDelim :: s ∧ pathDelim ∉ c ∧ Terminated s := by
  obtain h | h := h
  · exact .inl h
  · obtain ⟨c, s, rfl, hc⟩ := List.eq_append_cons_of_mem (List.mem_of_getLast? h)
    refine .inr ⟨c, s, rfl, hc, ?_⟩
    cases s with
    | nil => exact .inl rfl
    | cons b s =>
      rw [List.getLast?_append_cons, List.getLast?_cons_cons] at h
      exact .inr h

/-- The iterator of the directory at `sec` yields these entries one after another. -/
def Lists (drive : Drive) (info : FatInfo) (sec : UInt32) (w : World) (es : List FatDirInfo)
    (st : DirEntryIteratorState) (w' : World) : Prop :=
  ∃ st₀ gs, newDirEntryIterator info sec = some st₀ ∧ Calls drive info st₀ w gs st w' ∧
    gs.map Prod.fst = es

/-- A component leads to where the first directory with this name starts. -/
def Enters (drive : Drive) (info : FatInfo) (sec : UInt32) (w : World) (c : Bytes) (t : UInt32)
    (w' : World) : Prop :=
  ∃ es e st, Lists drive info sec w (es ++ [e]) st w' ∧ (∀ x ∈ es, ¬Matches drive c x) ∧
    Matches drive c e ∧ t = clusterToSec info e.fstClusLO

/-- No directory has this name. -/
def Missing (drive : Drive) (info : FatInfo) (sec : UInt32) (w : World) (c : Bytes) : Prop :=
  ∃ es st w', Lists drive info sec w es st w' ∧ Finished drive info st w' ∧
    ∀ x ∈ es, ¬Matches drive c x

/-- The components lead, one after another, from the directory at `sec` to the one
at `t`. -/
inductive Resolves (drive : Drive) (info : FatInfo) (sec : UInt32) (w : World) :
    List Bytes → UInt32 → World → Prop
  | start : Resolves drive info sec w [] sec w
  | enter {cs t w₁ c t' w₂} : Resolves drive info sec w cs t w₁ →
      Enters drive info t w₁ c t' w₂ → Resolves drive info sec w (cs ++ [c]) t' w₂

/-- The first component that leads nowhere. -/
def FirstMissing (drive : Drive) (info : FatInfo) (sec : UInt32) (w : World) (cs : List Bytes)
    (c : Bytes) : Prop :=
  ∃ pre post t w', cs = pre ++ c :: post ∧ Resolves drive info sec w pre t w' ∧
    Missing drive info t w' c

/-- The search for a name ends, in front of the end of the directory at the latest,
no name in its way is one that cannot be written, and the sector it finds is not
the one that stands for a failure. -/
def Searchable (drive : Drive) (info : FatInfo) (sec : UInt32) (w : World) (c : Bytes) : Prop :=
  ∃ es st w', Lists drive info sec w es st w' ∧
    ((∃ x ∈ es, Matches drive c x) ∨ Finished drive info st w') ∧
    (∀ x ∈ es, isDirectory x = true → ∃ s, rendered drive x.name = some s) ∧
    ∀ x ∈ es, Matches drive c x → clusterToSec info x.fstClusLO ≠ noSuchEntry

/-- The listing ends, with names that can be written. -/
def Listable (drive : Drive) (info : FatInfo) (sec : UInt32) (w : World) : Prop :=
  ∃ es st w', Lists drive info sec w es st w' ∧ Finished drive info st w' ∧
    ∀ x ∈ es, ∃ s, rendered drive x.name = some s

/-- Every iteration on the way of a path, and the one at its end, is as it should be. -/
structure Regular (drive : Drive) (info : FatInfo) (sec : UInt32) (w : World)
    (cs : List Bytes) : Prop where
  search : ∀ pre c post t w', cs = pre ++ c :: post → Resolves drive info sec w pre t w' →
    Searchable drive info t w' c
  list : ∀ t w', Resolves drive info sec w cs t w' → Listable drive info t w'

theorem calls_printed (h : Calls drive info st w gs st' w') : w'.printed = w.printed := by
  obtain ⟨-, -, -, hw⟩ := calls_gives h
  rw [hw]
  rfl

theorem resolves_printed (h : Resolves drive info sec w cs t w') : w'.printed = w.printed := by
  induction h with
  | start => rfl
  | enter _ he ih =>
    obtain ⟨es, e, st, ⟨st₀, gs, -, hc, -⟩, -⟩ := he
    rw [calls_printed hc, ih]

/-- Of two ways along a directory one goes further, if they do not end at the same
place. -/
theorem calls_compare {gs' : List (FatDirInfo × DirEntryIteratorState)}
    {st₁ st₂ : DirEntryIteratorState} {w₁ w₂ : World} (h : Calls drive info st w gs st₁ w₁)
    (h' : Calls drive info st w gs' st₂ w₂) (hlen : gs.length ≤ gs'.length) :
    (gs = gs' ∧ st₁ = st₂ ∧ w₁ = w₂) ∨
      gs.length < gs'.length ∧ gs <+: gs' ∧ ¬Finished drive info st₁ w₁ := by
  obtain ⟨es, hg, rfl, hw₁⟩ := calls_gives h
  obtain ⟨es', hg', rfl, hw₂⟩ := calls_gives h'
  rw [List.length_map, List.length_map] at hlen ⊢
  obtain hlt | heq := Nat.lt_or_eq_of_le hlen
  · obtain ⟨e, s', -, hf⟩ := gives_next hg hg' hlt
    refine .inr ⟨hlt, (gives_isPrefix hg hg' hlen).map _, fun hfin => ?_⟩
    obtain ⟨p, hp⟩ := finished_iff.mp hfin
    cases finds_unique hf hp
  · obtain ⟨rfl, hp⟩ := gives_unique hg hg' heq
    obtain ⟨rfl, hn⟩ := Prod.mk.inj hp
    refine .inl ⟨rfl, rfl, ?_⟩
    rw [hw₁, hw₂, hn]

theorem lists_compare {es es' : List FatDirInfo} {st₁ st₂ : DirEntryIteratorState}
    {w₁ w₂ : World} (h : Lists drive info sec w es st₁ w₁) (h' : Lists drive info sec w es' st₂ w₂)
    (hlen : es.length ≤ es'.length) :
    (es = es' ∧ st₁ = st₂ ∧ w₁ = w₂) ∨
      es.length < es'.length ∧ es <+: es' ∧ ¬Finished drive info st₁ w₁ := by
  obtain ⟨st, gs, hst, hc, rfl⟩ := h
  obtain ⟨st', gs', hst', hc', rfl⟩ := h'
  cases hst.symm.trans hst'
  rw [List.length_map, List.length_map] at hlen ⊢
  obtain ⟨rfl, h⟩ | ⟨hlt, hp, hne⟩ := calls_compare hc hc' hlen
  · exact .inl ⟨rfl, h⟩
  · exact .inr ⟨hlt, hp.map _, hne⟩

/-- What the search makes of entries: it stops at the first one with the name, or
passes all of them. -/
theorem search_calls (c : Bytes) (h : Calls drive info st w gs st' w')
    (hr : ∀ g ∈ gs, isDirectory g.1 = true → ∃ s, rendered drive g.1.name = some s) :
    (∃ gs₁ e st₁ w₁, Calls drive info st w (gs₁ ++ [(e, st₁)]) st₁ w₁ ∧ (e, st₁) ∈ gs ∧
      (∀ g ∈ gs₁, ¬Matches drive c g.1) ∧ Matches drive c e ∧
      Runs (handled (perform drive)) (.loop (findStep info c) st .done) w
        (.returned (clusterToSec info e.fstClusLO)) w₁) ∨
    ((∀ g ∈ gs, ¬Matches drive c g.1) ∧ ∀ o w'',
      Runs (handled (perform drive)) (.loop (findStep info c) st' .done) w' o w'' →
        Runs (handled (perform drive)) (.loop (findStep info c) st .done) w o w'') := by
  induction h with
  | start => exact .inr ⟨nofun, fun _ _ h => h⟩
  | @next gs st₁ w₁ e st₂ w₂ hcalls hrun he ih =>
    obtain ⟨gs₁, e', st', w', hc', hmem, hne, hm, hr'⟩ | ⟨hne, hgo⟩ :=
      ih (fun g hg => hr g (List.mem_append_left _ hg))
    · exact .inl ⟨gs₁, e', st', w', hc', List.mem_append_left _ hmem, hne, hm, hr'⟩
    · obtain ⟨n, rfl, ⟨-, hf⟩ | ⟨he', -⟩⟩ := nextDirEntry_finds hrun
      · by_cases hm : Matches drive c e
        · exact .inl ⟨gs, e, st₂, _, .next hcalls hrun he, List.mem_append_right _ (by simp), hne,
            hm, hgo _ _ (loop_stop (findStep_found hf hm) runs_done)⟩
        · refine .inr ⟨fun g hg => ?_, fun o w'' h => ?_⟩
          · obtain hg | hg := List.mem_append.mp hg
            · exact hne g hg
            · cases List.mem_singleton.mp hg
              exact hm
          · have hs := hr (e, st₂) (List.mem_append_right _ (by simp))
            exact hgo _ _ (loop_next (findStep_passes hf hs hm) h)
      · rw [he] at he'
        cases he'

theorem find_searches (h : Searchable drive info sec w c) :
    (∃ t w', Enters drive info sec w c t w' ∧ t ≠ noSuchEntry ∧
      Runs (handled (perform drive)) (findPathSecNum info sec c) w (.returned t) w') ∨
    Missing drive info sec w c ∧ ∃ w', w'.printed = w.printed ∧
      Runs (handled (perform drive)) (findPathSecNum info sec c) w (.returned noSuchEntry) w' := by
  obtain ⟨es, st, w', ⟨st₀, gs, hst, hc, rfl⟩, hend, hr, hsec⟩ := h
  have hr' : ∀ g ∈ gs, isDirectory g.1 = true → ∃ s, rendered drive g.1.name = some s :=
    fun g hg => hr g.1 (List.mem_map_of_mem hg)
  rw [findPathSecNum, hst]
  obtain ⟨gs₁, e, st₁, w₁, hc₁, hmem, hne, hm, hrun⟩ | ⟨hne, hgo⟩ := search_calls c hc hr'
  · refine .inl ⟨_, w₁, ⟨gs₁.map Prod.fst, e, st₁, ⟨st₀, _, hst, hc₁, by simp⟩, ?_, hm, rfl⟩,
      hsec e (List.mem_map_of_mem hmem) hm, hrun⟩
    intro x hx
    obtain ⟨g, hg, rfl⟩ := List.mem_map.mp hx
    exact hne g hg
  · have hne' : ∀ x ∈ gs.map Prod.fst, ¬Matches drive c x := by
      intro x hx
      obtain ⟨g, hg, rfl⟩ := List.mem_map.mp hx
      exact hne g hg
    obtain ⟨x, hx, hm⟩ | hfin := hend
    · exact absurd hm (hne' x hx)
    · refine .inr ⟨⟨_, st, w', ⟨st₀, gs, hst, hc, rfl⟩, hfin, hne'⟩, ?_⟩
      obtain ⟨p, hf⟩ := finished_iff.mp hfin
      have hprinted := calls_printed hc
      exact ⟨w'.after p.2, hprinted, hgo _ _ (loop_stop (findStep_stop hf) runs_done)⟩

/-- What the listing makes of entries. -/
theorem list_calls (h : Calls drive info st w gs st' w')
    (hr : ∀ g ∈ gs, ∃ s, rendered drive g.1.name = some s) :
    ∃ lines, gs.map (fun g => rendered drive g.1.name) = lines.map some ∧ ∀ o w'',
      Runs (handled (perform drive)) (.loop (listStep info) st' .done) (w'.print lines) o w'' →
        Runs (handled (perform drive)) (.loop (listStep info) st .done) w o w'' := by
  induction h with
  | start =>
    refine ⟨[], rfl, fun o w'' h => ?_⟩
    rwa [print_nil] at h
  | @next gs st₁ w₁ e st₂ w₂ _ hrun he ih =>
    obtain ⟨lines, hl, hgo⟩ := ih (fun g hg => hr g (List.mem_append_left _ hg))
    obtain ⟨s, hs⟩ := hr (e, st₂) (List.mem_append_right _ (by simp))
    obtain ⟨n, rfl, ⟨-, hf⟩ | ⟨he', -⟩⟩ := nextDirEntry_finds hrun
    · refine ⟨lines ++ [s], by simp [hl, hs], fun o w'' h => ?_⟩
      have hstep := listStep_prints (w := w₁.print lines) hf hs
      rw [← print_print] at h
      exact hgo _ _ (loop_next hstep h)
    · rw [he] at he'
      cases he'

/-- The names in a directory. -/
def Names (drive : Drive) (info : FatInfo) (sec : UInt32) (w : World) (lines : List Bytes) : Prop :=
  ∃ es st w', Lists drive info sec w es st w' ∧ Finished drive info st w' ∧
    es.map (fun e => rendered drive e.name) = lines.map some

theorem list_lists (h : Listable drive info sec w) :
    ∃ lines w', Names drive info sec w lines ∧ w'.printed = w.printed ++ lines ∧
      Runs (handled (perform drive)) (list info sec) w (.returned ()) w' := by
  obtain ⟨es, st, w', ⟨st₀, gs, hst, hc, rfl⟩, hfin, hr⟩ := h
  obtain ⟨lines, hl, hgo⟩ := list_calls hc (fun g hg => hr g.1 (List.mem_map_of_mem hg))
  obtain ⟨p, hf⟩ := finished_iff.mp hfin
  have hprinted : w'.printed ++ lines = w.printed ++ lines := by
    rw [calls_printed hc]
  rw [list, hst]
  refine ⟨lines, (w'.print lines).after p.2, ⟨_, st, w', ⟨st₀, gs, hst, hc, rfl⟩, hfin, ?_⟩,
    hprinted, hgo _ _ (loop_stop (listStep_stop (w := w'.print lines) hf) runs_done)⟩
  rw [List.map_map]
  exact hl

/-- The component is chopped off the path. -/
theorem lsStep_chops (info : FatInfo) (sec : UInt32) {n : Nat} {memory : Buffer n} {i : Int}
    {u s v : Bytes}
    (hm : memory.bytes = u ++ (c ++ pathDelim :: s) ++ 0 :: v) (hi : i = u.length)
    (hz : 0 ∉ c ++ pathDelim :: s) (hc : pathDelim ∉ c) :
    ∃ memory', memory'.bytes = (u ++ c ++ [0]) ++ s ++ 0 :: v ∧
      lsStep info (sec, memory, .inside i) = (do
        let pathSecNum ← findPathSecNum info sec c
        if pathSecNum = noSuchEntry then
          err notFoundErr (ascii "There is no entry with name " ++ c)
        else return .inl (pathSecNum, memory', .inside (i + c.length + 1))) := by
  have hstring : memory.string (.inside i) = some (c ++ pathDelim :: s) :=
    string_inside hm hi hz
  have hm' : memory.bytes = (u ++ c) ++ pathDelim :: (s ++ 0 :: v) := by
    rw [hm]
    simp
  obtain ⟨memory', hstore, hmemory'⟩ := store_inside hm' (i := i + c.length)
    (by rw [List.length_append]; omega) 0
  have hname : memory'.string (.inside i) = some c :=
    string_inside hmemory' hi (fun h => hz (List.mem_append_left _ h))
  refine ⟨memory', by rw [hmemory']; simp, ?_⟩
  have hne : (c ++ pathDelim :: s).length ≠ 0 := by simp
  simp only [lsStep, hstring, access, Program.pure_eq, Program.done_bind, if_neg hne,
    strchr_found hstring hc, Pointer.move, hstore, hname]

theorem enters_compare {es es' : List FatDirInfo} {e' : FatDirInfo}
    {st₁ st₂ : DirEntryIteratorState} {w₁ w₂ : World}
    (h : Lists drive info sec w (es ++ [e]) st₁ w₁)
    (h' : Lists drive info sec w (es' ++ [e']) st₂ w₂) (hm : Matches drive c e)
    (hne : ∀ x ∈ es', ¬Matches drive c x) (hlen : es.length ≤ es'.length) : e = e' ∧ w₁ = w₂ := by
  obtain ⟨heq, -, hw⟩ | ⟨hlt, hp, -⟩ := lists_compare h h' (by simpa using hlen)
  · obtain ⟨-, he⟩ := List.append_inj' heq rfl
    cases he
    exact ⟨rfl, hw⟩
  · obtain heq | hp := List.prefix_concat_iff.mp hp
    · rw [heq] at hlt
      exact absurd hlt (Nat.lt_irrefl _)
    · exact absurd hm (hne e (hp.subset (by simp)))

theorem enters_unique {t' : UInt32} {w'' : World} (h : Enters drive info sec w c t w')
    (h' : Enters drive info sec w c t' w'') : t = t' ∧ w' = w'' := by
  obtain ⟨es, e, st, hl, hne, hm, rfl⟩ := h
  obtain ⟨es', e', st', hl', hne', hm', rfl⟩ := h'
  obtain hlen | hlen := Nat.le_total es.length es'.length
  · obtain ⟨rfl, hw⟩ := enters_compare hl hl' hm hne' hlen
    exact ⟨rfl, hw⟩
  · obtain ⟨rfl, hw⟩ := enters_compare hl' hl hm' hne hlen
    exact ⟨rfl, hw.symm⟩

theorem missing_not_enters (h : Missing drive info sec w c) : ¬Enters drive info sec w c t w' := by
  rintro ⟨es, e, st, hl, -, hm, -⟩
  obtain ⟨es', st', w'', hl', hfin, hne⟩ := h
  have hmem : e ∈ es' := by
    obtain hlen | hlen := Nat.le_total es'.length (es ++ [e]).length
    · obtain ⟨rfl, -⟩ | ⟨-, -, hnot⟩ := lists_compare hl' hl hlen
      · simp
      · exact absurd hfin hnot
    · obtain ⟨rfl, -⟩ | ⟨-, hp, -⟩ := lists_compare hl hl' hlen
      · simp
      · exact hp.subset (by simp)
  exact hne e hmem hm

theorem resolves_unique {t' : UInt32} {w'' : World} (h : Resolves drive info sec w cs t w')
    (h' : Resolves drive info sec w cs t' w'') : t = t' ∧ w' = w'' := by
  induction h generalizing t' w'' with
  | start =>
    generalize hcs : [] = cs at h'
    cases h' with
    | start => exact ⟨rfl, rfl⟩
    | enter => simp at hcs
  | @enter cs t₁ w₁ c t₂ w₂ _ he ih =>
    generalize hcs : cs ++ [c] = cs' at h'
    cases h' with
    | start => simp at hcs
    | @enter cs' t₁' w₁' c' _ _ hr' he' =>
      obtain ⟨rfl, hc⟩ := List.append_inj' hcs rfl
      cases hc
      obtain ⟨rfl, rfl⟩ := ih hr'
      exact enters_unique he he'

/-- A path is resolved component after component. -/
theorem resolves_split {pre post : List Bytes} (h : Resolves drive info sec w cs t w')
    (hcs : cs = pre ++ c :: post) : ∃ t₁ w₁ t₂ w₂, Resolves drive info sec w pre t₁ w₁ ∧
      Enters drive info t₁ w₁ c t₂ w₂ := by
  induction h generalizing post with
  | start => simp at hcs
  | @enter cs t₁ w₁ c' t₂ w₂ hr he ih =>
    obtain rfl | ⟨post, b, rfl⟩ := List.eq_nil_or_concat post
    · obtain ⟨rfl, hc⟩ := List.append_inj' hcs rfl
      cases hc
      exact ⟨t₁, w₁, t₂, w₂, hr, he⟩
    · rw [List.concat_eq_append, ← List.cons_append, ← List.append_assoc] at hcs
      exact ih (List.append_inj' hcs rfl).1

theorem firstMissing_not_resolves (h : FirstMissing drive info sec w cs c) :
    ¬Resolves drive info sec w cs t w' := by
  intro hr
  obtain ⟨pre, post, t₁, w₁, hcs, hpre, hmiss⟩ := h
  obtain ⟨t₂, w₂, t₃, w₃, hpre', he⟩ := resolves_split hr hcs
  obtain ⟨rfl, rfl⟩ := resolves_unique hpre hpre'
  exact missing_not_enters hmiss he

theorem firstMissing_unique {c' : Bytes} (h : FirstMissing drive info sec w cs c)
    (h' : FirstMissing drive info sec w cs c') : c = c' := by
  obtain ⟨pre, post, t, w₁, hcs, hr, hm⟩ := h
  obtain ⟨pre', post', t', w₁', hcs', hr', hm'⟩ := h'
  obtain ⟨as, hpre, hrest⟩ | ⟨as, hpre, hrest⟩ := List.append_eq_append_iff.mp (hcs.symm.trans hcs')
  · cases as with
    | nil => exact (List.cons.inj hrest).1
    | cons a as =>
      obtain ⟨rfl, -⟩ := List.cons.inj hrest
      exact absurd hr' (firstMissing_not_resolves ⟨pre, as, t, w₁, hpre, hr, hm⟩)
  · cases as with
    | nil => exact (List.cons.inj hrest).1.symm
    | cons a as =>
      obtain ⟨rfl, -⟩ := List.cons.inj hrest
      exact absurd hr (firstMissing_not_resolves ⟨pre', as, t', w₁', hpre, hr', hm'⟩)

def notFound (c : Bytes) : Exit :=
  .status notFoundErr (ascii "There is no entry with name " ++ c)

/-- The components in front of the path have been resolved, and the rest of it is in
memory. -/
theorem ls_follows {n : Nat} {memory : Buffer n} {i : Int} {u v : Bytes} {sec₀ : UInt32}
    {w₀ : World} {pre : List Bytes} (hreg : Regular drive info sec₀ w₀ (pre ++ components path))
    (hres : Resolves drive info sec₀ w₀ pre sec w)
    (hm : memory.bytes = u ++ path ++ 0 :: v) (hi : i = u.length) (hz : 0 ∉ path)
    (hp : Terminated path) :
    (∃ t w₁ lines w', Resolves drive info sec₀ w₀ (pre ++ components path) t w₁ ∧
      Names drive info t w₁ lines ∧ w'.printed = w₀.printed ++ lines ∧
      Runs (handled (perform drive)) (ls info sec memory (.inside i)) w (.returned ()) w') ∨
    ∃ c w', FirstMissing drive info sec₀ w₀ (pre ++ components path) c ∧
      w'.printed = w₀.printed ∧ Runs (handled (perform drive)) (ls info sec memory (.inside i)) w
        (.halted (notFound c)) w' := by
  induction hn : path.length using Nat.strongRecOn generalizing path memory i u sec w pre with
  | _ k ih =>
    obtain rfl | ⟨c, s, rfl, hc, hs⟩ := terminated_cases hp
    · have hnil : components [] = [] := rfl
      rw [hnil, List.append_nil] at hreg ⊢
      obtain ⟨lines, w', hnames, hprinted, hrun⟩ := list_lists (hreg.list sec w hres)
      refine .inl ⟨sec, w, lines, w', hres, hnames, ?_, loop_stop ?_ runs_done⟩
      · rw [hprinted, resolves_printed hres]
      · have hstring : memory.string (.inside i) = some [] := string_inside hm hi hz
        simp only [lsStep, hstring, access, Program.pure_eq, Program.done_bind,
          List.length_nil, if_true]
        exact runs_next hrun runs_done
    · rw [components_cons hc] at hreg ⊢
      obtain ⟨memory', hm', hstep⟩ := lsStep_chops info sec hm hi hz hc
      obtain ⟨t, w', henter, hne, hrun⟩ | ⟨hmiss, w', hprinted, hrun⟩ :=
        find_searches (hreg.search pre c (components s) sec w rfl hres)
      · have hnext : Runs (handled (perform drive)) (lsStep info (sec, memory, .inside i)) w
            (.returned (.inl (t, memory', .inside (i + c.length + 1)))) w' := by
          rw [hstep]
          apply runs_next hrun
          rw [if_neg hne]
          exact runs_done
        have hi' : i + c.length + 1 = ((u ++ c ++ [0]).length : Int) := by
          simp only [hi, List.length_append, List.length_singleton]
          omega
        rw [List.append_cons] at hreg ⊢
        obtain ⟨t', w₁, lines, w'', h₁, h₂, h₃, h₄⟩ | ⟨c', w'', h₁, h₂, h₃⟩ :=
          ih s.length (by rw [← hn]; simp; omega) hreg (.enter hres henter) hm' hi'
            (fun h => hz (by simp [h])) hs rfl
        · exact .inl ⟨t', w₁, lines, w'', h₁, h₂, h₃, loop_next hnext h₄⟩
        · exact .inr ⟨c', w'', h₁, h₂, loop_next hnext h₃⟩
      · refine .inr ⟨c, w', ⟨pre, components s, sec, w, rfl, hres, hmiss⟩, ?_, loop_halted ?_⟩
        · rw [hprinted, resolves_printed hres]
        · rw [hstep]
          apply runs_next hrun
          rw [if_pos rfl]
          exact runs_halt

/-- A path is resolved component after component from the left, and what it leads to
is listed, unless a component is missing. -/
theorem ls_folds (hz : 0 ∉ path) (hp : Terminated path)
    (hreg : Regular drive info sec w (components path)) :
    ((∃ t w₁, Resolves drive info sec w (components path) t w₁) ∨
      ∃ c, FirstMissing drive info sec w (components path) c) ∧
    (∀ t w₁, Resolves drive info sec w (components path) t w₁ →
      ∃ lines w', Names drive info t w₁ lines ∧ w'.printed = w.printed ++ lines ∧
        Runs (handled (perform drive)) (ls info sec (argument path) start) w (.returned ()) w') ∧
    ∀ c, FirstMissing drive info sec w (components path) c ↔
      ∃ w', w'.printed = w.printed ∧ Runs (handled (perform drive))
        (ls info sec (argument path) start) w (.halted (notFound c)) w' := by
  have hm : (argument path).bytes = [] ++ path ++ 0 :: [] := rfl
  obtain ⟨t, w₁, lines, w', hres, hnames, hprinted, hrun⟩ | ⟨c, w', hmiss, hprinted, hrun⟩ :=
    @ls_follows drive info w sec path _ _ _ _ _ _ w [] hreg .start hm rfl hz hp
  · refine ⟨.inl ⟨t, w₁, hres⟩, fun t' w₁' hres' => ?_, fun c => ⟨fun hmiss => ?_, ?_⟩⟩
    · obtain ⟨rfl, rfl⟩ := resolves_unique hres hres'
      exact ⟨lines, w', hnames, hprinted, hrun⟩
    · exact absurd hres (firstMissing_not_resolves hmiss)
    · rintro ⟨w'', -, hrun'⟩
      cases (runs_deterministic _ _ hrun hrun' nofun nofun).1
  · refine ⟨.inr ⟨c, hmiss⟩, fun t w₁ hres => ?_, fun c' => ⟨fun hmiss' => ?_, ?_⟩⟩
    · exact absurd hres (firstMissing_not_resolves hmiss)
    · cases firstMissing_unique hmiss hmiss'
      exact ⟨w', hprinted, hrun⟩
    · rintro ⟨w'', -, hrun'⟩
      have hname := (runs_deterministic _ _ hrun hrun' nofun nofun).1
      simp only [notFound, Outcome.halted.injEq, Exit.status.injEq, true_and] at hname
      cases List.append_cancel_left hname
      exact hmiss

/-- A root directory with a directory in it that is empty. -/
def nested : Drive :=
  small (List.replicate 32 0)
    [record (ascii "A          ") 0x10 2 0, List.replicate 32 0, List.replicate 32 0]

def nestedSlot : Slot := ⟨ascii "A          ", 0x10, 2⟩

def nestedEntry : FatDirInfo := nestedSlot.entry (Buffer.zeros nameBytes)

theorem nested_lists (w : World) : Lists nested smallInfo 3 w [nestedEntry]
    (before ⟨true, 2, -1, 96, -1⟩ 1) (w.after (w.entries + 1)) := by
  have hslot : given nested.image 96 0 = some nestedSlot := by decide +kernel
  have hgive : examine nested smallInfo (before ⟨true, 2, -1, 96, -1⟩ 0, w.entries) =
      .give nestedEntry (before ⟨true, 2, -1, 96, -1⟩ 1, w.entries + 1) :=
    examine_given (by decide) hslot
  exact ⟨_, _, rfl, gives_calls (.next .start (.give hgive)), rfl⟩

theorem nested_matches : Matches nested (ascii "A") nestedEntry := by
  decide +kernel

theorem nested_resolves (w : World) :
    Resolves nested smallInfo 3 w [ascii "A"] 5 (w.after (w.entries + 1)) := by
  have henter : Enters nested smallInfo 3 w (ascii "A") 5 (w.after (w.entries + 1)) :=
    ⟨[], nestedEntry, _, nested_lists w, nofun, nested_matches, rfl⟩
  exact .enter .start henter

theorem nested_listable (w : World) : Listable nested smallInfo 5 w := by
  have hclose : Closes nested.image 160 0 := ⟨⟨List.replicate 11 0, 0, 0⟩, by decide +kernel⟩
  refine ⟨[], _, w, ⟨⟨false, 1, 2, 160, -1⟩, [], rfl, .start, rfl⟩, ?_, nofun⟩
  have hstop : ∃ p, examine nested smallInfo (before ⟨false, 1, 2, 160, -1⟩ 0, w.entries) =
      .stop p := examine_closes (by decide) hclose
  obtain ⟨p, hp⟩ := hstop
  exact finished_iff.mpr ⟨p, .stop hp⟩

theorem nested_regular (w : World) : Regular nested smallInfo 3 w [ascii "A"] where
  search pre c post t w' hcs hres := by
    cases pre with
    | nil =>
      cases hcs
      obtain ⟨rfl, rfl⟩ := resolves_unique .start hres
      refine ⟨_, _, _, nested_lists _, .inl ⟨_, List.mem_singleton_self _, nested_matches⟩,
        fun x hx _ => ?_, fun x hx _ => ?_⟩
      · cases List.mem_singleton.mp hx
        exact ⟨_, nested_matches.2⟩
      · cases List.mem_singleton.mp hx
        decide
    | cons b pre => simp at hcs
  list t w' hres := by
    obtain ⟨rfl, rfl⟩ := resolves_unique (nested_resolves w) hres
    exact nested_listable _

theorem ls_folds_nested : ∃ w', Runs (handled (perform nested))
    (ls smallInfo 3 (argument (ascii "A/")) start) ⟨0, 0, []⟩ (.returned ()) w' := by
  have hpath : Terminated (ascii "A/") := .inr rfl
  obtain ⟨-, hlist, -⟩ := ls_folds (by decide) hpath (nested_regular ⟨0, 0, []⟩)
  obtain ⟨lines, w', -, -, hrun⟩ := hlist 5 _ (nested_resolves _)
  exact ⟨w', hrun⟩

end Ti3.Fat.PathResolution
