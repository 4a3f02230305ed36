import Ti3.Fat.Divisors
import Ti3.Library.DirectoryGraph

namespace Ti3.Fat.Volume

open Library.CString Library.CMemory Library.Interaction Library.Determinism Library.Cursor
open Library.DirectoryGraph DriveLs Image Iterator Table Traversal Loops Listing Chain
open PathResolution FileNames Ascent Divisors

variable {Dir : Type}

/-- A slot with the name of an entry. A directory starts where the entry leads. -/
structure Describes (info : FatInfo) (place : Dir → UInt32) (s : Slot) (e : Bytes × Option Dir) :
    Prop where
  named : ∃ n : FatName, n.Writable ∧ newline ∉ n.bytes ∧ s.name = n.bytes ∧ n.text = e.1
  file : s.attr &&& 0x10 = 0 → e.2 = none
  directory : s.attr &&& 0x10 ≠ 0 → ∃ d, e.2 = some d ∧ clusterToSec info s.fstClusLO = place d

/-- These are the slots of the directory that come before its end, without the labels. -/
def Contains (image : Bytes) (info : FatInfo) (sec : UInt32) (ss : List Slot) : Prop :=
  ∃ k, k ≤ slotCount info sec ∧
    (∀ j < k, passed image (secToOffset info sec) j = true) ∧
    (k = slotCount info sec ∨ Closes image (secToOffset info sec) k) ∧
    (givens image (secToOffset info sec) k).map Prod.fst = ss

/-- The image holds directories at these sectors. Each of them is the root directory or has
one cluster. -/
structure Stored (image : Bytes) (info : FatInfo) (G : DirGraph Bytes Dir) (place : Dir → UInt32) :
    Prop where
  header : fatInfo image = some info
  sectors : info.bytsPerSec ≠ 0
  placed : ∀ d, place d ≠ noSuchEntry
  compact : ∀ d, ∃ n, Compact image info (place d) n
  entries : ∀ d, ∃ ss, Contains image info (place d) ss ∧
    List.Forall₂ (Describes info place) ss (G.entries d)

/-- What the program has of an entry. -/
structure Presents (drive : Drive) (info : FatInfo) (place : Dir → UInt32) (x : FatDirInfo)
    (e : Bytes × Option Dir) : Prop where
  written : rendered drive x.name = some e.1
  file : isDirectory x = false → e.2 = none
  directory : isDirectory x = true → ∃ d, e.2 = some d ∧ clusterToSec info x.fstClusLO = place d

section entries

variable {drive : Drive} {info : FatInfo} {place : Dir → UInt32} {s : Slot} {c : Bytes}
variable {e : Bytes × Option Dir} {x : FatDirInfo}

theorem describes_presents (hs : Describes info place s e) (m : Buffer nameBytes) :
    Presents drive info place (s.entry m) e := by
  obtain ⟨n, hw, hl, hname, htext⟩ := hs.named
  have hwritten : rendered drive (s.entry m).name = some n.text := by
    obtain ⟨name, attr, fstClusLO⟩ := s
    subst hname
    exact rendered_entry hw hl m
  constructor
  · rw [hwritten, htext]
  · intro hd
    apply hs.file
    exact not_not.mp (of_decide_eq_false hd)
  · intro hd
    apply hs.directory
    exact of_decide_eq_true hd

theorem shows_presents {ss : List Slot} {xs : List FatDirInfo} {es : List (Bytes × Option Dir)}
    (hx : List.Forall₂ (Shows drive) ss xs) (he : List.Forall₂ (Describes info place) ss es) :
    List.Forall₂ (Presents drive info place) xs es := by
  induction hx generalizing es with
  | nil =>
    cases he
    exact .nil
  | cons hx _ ih =>
    cases he with
    | cons he hes =>
      obtain ⟨-, m, rfl⟩ := hx
      exact .cons (describes_presents he _) (ih hes)

theorem presents_matches (h : Presents drive info place x e) (hm : Matches drive c x) :
    ∃ d, e = (c, some d) ∧ clusterToSec info x.fstClusLO = place d := by
  obtain ⟨d, hd, hsec⟩ := h.directory hm.1
  have hname : e.1 = c := Option.some.inj (h.written.symm.trans hm.2)
  exact ⟨d, Prod.ext hname hd, hsec⟩

theorem presents_unmatched (h : Presents drive info place x e) (hm : ¬ Matches drive c x)
    (hc : e.1 = c) : e.2 = none := by
  apply h.file
  apply Bool.eq_false_iff.mpr
  intro hd
  exact hm ⟨hd, hc ▸ h.written⟩

theorem unmatched_entries {xs : List FatDirInfo} {es : List (Bytes × Option Dir)}
    (h : List.Forall₂ (Presents drive info place) xs es) (hm : ∀ x ∈ xs, ¬ Matches drive c x) :
    ∀ e ∈ es, e.1 = c → e.2 = none := by
  induction h with
  | nil => exact List.forall_mem_nil _
  | cons hx _ ih =>
    obtain ⟨hhead, htail⟩ := List.forall_mem_cons.mp hm
    exact List.forall_mem_cons.mpr ⟨presents_unmatched hx hhead, ih htail⟩

theorem presents_split {xs ys : List FatDirInfo} {es : List (Bytes × Option Dir)}
    (h : List.Forall₂ (Presents drive info place) (xs ++ x :: ys) es) :
    ∃ as b bs, es = as ++ b :: bs ∧ List.Forall₂ (Presents drive info place) xs as ∧
      Presents drive info place x b := by
  induction xs generalizing es with
  | nil =>
    cases h with
    | cons hx _ => exact ⟨[], _, _, rfl, .nil, hx⟩
  | cons x' xs ih =>
    cases h with
    | cons hx h =>
      obtain ⟨as, b, bs, rfl, has, hb⟩ := ih h
      exact ⟨_ :: as, b, bs, rfl, .cons hx has, hb⟩

theorem presents_mem {xs : List FatDirInfo} {es : List (Bytes × Option Dir)}
    (h : List.Forall₂ (Presents drive info place) xs es) (hx : x ∈ xs) :
    ∃ e, Presents drive info place x e := by
  obtain ⟨as, bs, rfl⟩ := List.append_of_mem hx
  obtain ⟨-, e, -, -, -, he⟩ := presents_split h
  exact ⟨e, he⟩

theorem presents_names {xs : List FatDirInfo} {es : List (Bytes × Option Dir)}
    {lines : List Bytes} (h : List.Forall₂ (Presents drive info place) xs es)
    (hl : xs.map (fun x => rendered drive x.name) = lines.map some) : lines = es.map Prod.fst := by
  induction h generalizing lines with
  | nil => exact List.map_eq_nil_iff.mp hl.symm
  | cons hx _ ih =>
    cases lines with
    | nil => cases hl
    | cons line lines =>
      obtain ⟨hhead, htail⟩ := List.cons.inj hl
      rw [List.map_cons, ← ih htail, Option.some.inj (hhead.symm.trans hx.written)]

end entries

section directories

variable {drive : Drive} {info : FatInfo} {G : DirGraph Bytes Dir} {place : Dir → UInt32}
variable {d : Dir} {c : Bytes} {w w' : World} {t : UInt32} {sec : UInt32}

/-- The iterator comes past the slots of a directory. -/
theorem contains_displays {n : Nat} {ss : List Slot} (hb : info.bytsPerSec ≠ 0)
    (hc : Compact drive.image info sec n) (h : Contains drive.image info sec ss) :
    ∃ st, newDirEntryIterator info sec = some st ∧
      ∀ n, Displays drive info (st, n) ss := by
  obtain ⟨st, hst, h₀, hbase, hcount, hlast⟩ := iterator_start hc
  obtain ⟨k, hk, hp, hend, rfl⟩ := h
  rw [← hbase, ← hcount] at *
  have htraverses : Traverses drive.image info (st.isRootDir = true) st.maxEntryCnt.toNat
      st.clusterOffset st.clusterNr ((givens drive.image st.clusterOffset k).map Prod.fst) := by
    obtain rfl | hlt := Nat.eq_or_lt_of_le hk
    · exact .last hp hlast
    · exact .closes hlt hp (hend.resolve_left (Nat.ne_of_lt hlt))
  refine ⟨st, hst, fun n => ?_⟩
  have hdisplays := traverses_displays hb htraverses rfl rfl rfl n
  rwa [h₀] at hdisplays

theorem stored_lists (h : Stored drive.image info G place) (d : Dir) (w : World) :
    ∃ xs st w', Lists drive info (place d) w xs st w' ∧ Finished drive info st w' ∧
      List.Forall₂ (Presents drive info place) xs (G.entries d) := by
  obtain ⟨n, hcompact⟩ := h.compact d
  obtain ⟨ss, hcontains, hes⟩ := h.entries d
  obtain ⟨st, hst, hdisplays⟩ := contains_displays h.sectors hcompact hcontains
  obtain ⟨xs, hproduces, hshows⟩ := hdisplays w.entries
  obtain ⟨gs, st', w', hcalls, hfin, hgs⟩ := calls_produces.mpr hproduces
  exact ⟨xs, st', w', ⟨st, gs, hst, hcalls, hgs⟩, hfin, shows_presents hshows hes⟩

theorem stored_searchable (h : Stored drive.image info G place) (d : Dir) (w : World)
    (c : Bytes) : Searchable drive info (place d) w c := by
  obtain ⟨xs, st, w', hl, hfin, hes⟩ := stored_lists h d w
  refine ⟨xs, st, w', hl, .inr hfin, fun x hx _ => ?_, fun x hx hm => ?_⟩
  · obtain ⟨e, he⟩ := presents_mem hes hx
    exact ⟨_, he.written⟩
  · obtain ⟨e, he⟩ := presents_mem hes hx
    obtain ⟨t, -, hsec⟩ := presents_matches he hm
    rw [hsec]
    exact h.placed t

theorem stored_listable (h : Stored drive.image info G place) (d : Dir) (w : World) :
    Listable drive info (place d) w := by
  obtain ⟨xs, st, w', hl, hfin, hes⟩ := stored_lists h d w
  refine ⟨xs, st, w', hl, hfin, fun x hx => ?_⟩
  obtain ⟨e, he⟩ := presents_mem hes hx
  exact ⟨_, he.written⟩

/-- What the iterator yields is the beginning of all it yields. -/
theorem lists_initial {xs ys : List FatDirInfo} {st st' : DirEntryIteratorState} {w₁ w₂ : World}
    (h : Lists drive info sec w xs st w₁) (h' : Lists drive info sec w ys st' w₂)
    (hfin : Finished drive info st' w₂) : xs <+: ys := by
  obtain hlen | hlen := Nat.le_total xs.length ys.length
  · obtain ⟨rfl, -⟩ | ⟨-, hp, -⟩ := lists_compare h h' hlen
    · exact List.prefix_rfl
    · exact hp
  · obtain ⟨rfl, -⟩ | ⟨-, -, hnot⟩ := lists_compare h' h hlen
    · exact List.prefix_rfl
    · exact absurd hfin hnot

theorem finished_unique {xs ys : List FatDirInfo} {st st' : DirEntryIteratorState}
    {w₁ w₂ : World} (h : Lists drive info sec w xs st w₁) (hfin : Finished drive info st w₁)
    (h' : Lists drive info sec w ys st' w₂) (hfin' : Finished drive info st' w₂) : xs = ys :=
  (lists_initial h h' hfin').eq_of_length_le (lists_initial h' h hfin).length_le

theorem enters_enter (h : Stored drive.image info G place)
    (he : Enters drive info (place d) w c t w') : ∃ d', G.enter d c = some d' ∧ t = place d' := by
  obtain ⟨xs, x, st, hl, hne, hm, rfl⟩ := he
  obtain ⟨ys, st', w'', hl', hfin, hes⟩ := stored_lists h d w
  obtain ⟨zs, rfl⟩ := lists_initial hl hl' hfin
  rw [List.append_assoc] at hes
  obtain ⟨as, b, bs, hentries, has, hb⟩ := presents_split hes
  obtain ⟨d', rfl, hsec⟩ := presents_matches hb hm
  exact ⟨d', DirGraph.enter_some hentries (unmatched_entries has hne), hsec⟩

theorem missing_enter (h : Stored drive.image info G place)
    (hm : Missing drive info (place d) w c) : G.enter d c = none := by
  obtain ⟨xs, st, w₁, hl, hfin, hne⟩ := hm
  obtain ⟨ys, st', w₂, hl', hfin', hes⟩ := stored_lists h d w
  obtain rfl := finished_unique hl hfin hl' hfin'
  exact DirGraph.enter_none.mpr (unmatched_entries hes hne)

theorem names_entries (h : Stored drive.image info G place) {lines : List Bytes}
    (hn : Names drive info (place d) w lines) : lines = (G.entries d).map Prod.fst := by
  obtain ⟨xs, st, w₁, hl, hfin, hmap⟩ := hn
  obtain ⟨ys, st', w₂, hl', hfin', hes⟩ := stored_lists h d w
  obtain rfl := finished_unique hl hfin hl' hfin'
  exact presents_names hes hmap

end directories

section paths

variable {drive : Drive} {info : FatInfo} {G : DirGraph Bytes Dir} {place : Dir → UInt32}
variable {d root : Dir} {c path rest : Bytes} {w : World}

instance (path : Bytes) : Decidable (Terminated path) := inferInstanceAs (Decidable (_ ∨ _))

/-- How the program should end for a path, and what it should print. Without a delimiter at
the end of the path it follows a null pointer. -/
def expected (G : DirGraph Bytes Dir) (d : Dir) (path : Bytes) : Outcome Exit Unit × List Bytes :=
  match G.resolve d (components path) with
  | .error c => (.halted (notFound c), [])
  | .ok t =>
    if Terminated path then (.returned (), (G.entries t).map Prod.fst) else (.halted .fault, [])

theorem expected_nil : expected G d [] = (.returned (), (G.entries d).map Prod.fst) := rfl

theorem terminated_cons (c s : Bytes) : Terminated (c ++ pathDelim :: s) ↔ Terminated s := by
  cases s with
  | nil => simp [Terminated]
  | cons b s => simp [Terminated]

theorem expected_cons (hc : pathDelim ∉ c) (s : Bytes) : expected G d (c ++ pathDelim :: s) =
    match G.enter d c with
    | some t => expected G t s
    | none => (.halted (notFound c), []) := by
  rw [expected, components_cons hc, DirGraph.resolve]
  cases G.enter d c with
  | none => rfl
  | some t => simp only [expected, terminated_cons]

theorem expected_open (hne : path ≠ []) (hd : pathDelim ∉ path) :
    expected G d path = (.halted .fault, []) := by
  have hcomponents : components path = [] := by
    rw [components, List.splitOn_eq_singleton hd]
    rfl
  have hopen : ¬ Terminated path := by
    rintro (h | h)
    · exact hne h
    · exact hd (List.mem_of_getLast? h)
  rw [expected, hcomponents, DirGraph.resolve]
  exact if_neg hopen

/-- Without a delimiter there is nothing to chop off. -/
theorem lsRuns_open {sec : UInt32} (hne : path ≠ []) (hd : pathDelim ∉ path) (hz : 0 ∉ path) :
    LsRuns drive info sec path w (.halted .fault) w := by
  intro n memory i u v hm hi
  have hstring : memory.string (.inside i) = some path := string_inside hm hi hz
  have hlength : path.length ≠ 0 := fun h => hne (List.length_eq_zero_iff.mp h)
  have hstep : lsStep info (sec, memory, .inside i) = .halt .fault := by
    simp only [lsStep, hstring, access, Program.pure_eq, Program.done_bind, if_neg hlength,
      strchr_missing hstring hd, Buffer.store, Program.halt_bind]
  apply loop_halted
  rw [hstep]
  exact runs_halt

/-- From every directory a path is followed in the image as in the graph. -/
theorem stored_follows (h : Stored drive.image info G place) (hz : 0 ∉ path) (d : Dir)
    (w : World) : ∃ w', w'.printed = w.printed ++ (expected G d path).2 ∧
      LsRuns drive info (place d) path w (expected G d path).1 w' := by
  induction hk : path.length using Nat.strongRecOn generalizing path d w with
  | _ k ih =>
    by_cases hd : pathDelim ∈ path
    · obtain ⟨c, s, rfl, hc⟩ := List.eq_append_cons_of_mem hd
      have hzc : 0 ∉ c := fun h => hz (List.mem_append_left _ h)
      have hzs : 0 ∉ s := fun h => hz (List.mem_append_right _ (List.mem_cons_of_mem _ h))
      rw [expected_cons hc]
      obtain ⟨t, w₁, henters, hne, hr⟩ | ⟨hmissing, w₁, hprinted, hr⟩ :=
        find_searches (stored_searchable h d w c)
      · obtain ⟨d', hd', rfl⟩ := enters_enter h henters
        have hprinted : w₁.printed = w.printed := resolves_printed (.enter .start henters)
        obtain ⟨w', hlines, hrest⟩ := ih s.length (by simp [← hk]; omega) hzs d' w₁ rfl
        rw [hd']
        exact ⟨w', hlines.trans (by rw [hprinted]), lsRuns_enter ⟨hzc, hc⟩ hzs hr hne hrest⟩
      · rw [missing_enter h hmissing]
        exact ⟨w₁, hprinted.trans (List.append_nil _).symm, lsRuns_missing ⟨hzc, hc⟩ hzs hr⟩
    · by_cases hne : path = []
      · subst hne
        obtain ⟨lines, w', hnames, hprinted, hr⟩ := list_lists (stored_listable h d w)
        rw [expected_nil, ← names_entries h hnames]
        exact ⟨w', hprinted, lsRuns_list hr⟩
      · rw [expected_open hne hd]
        exact ⟨w, (List.append_nil _).symm, lsRuns_open hne hd hz⟩

end paths

section program

variable {drive : Drive} {info : FatInfo} {G : DirGraph Bytes Dir} {place : Dir → UInt32}
variable {root : Dir} {path prog : Bytes} {rest : List Bytes} {o : Outcome Exit Unit}
variable {lines : List Bytes}

/-- Nothing has been read or printed. -/
def fresh : World := ⟨0, 0, []⟩

theorem main_follows (prog : Bytes) (h : Stored drive.image info G place)
    (hroot : place root = info.firstRootDirSecNum) (hz : 0 ∉ rest.headD []) :
    ∃ w', w'.printed = (expected G root (rest.headD [])).2 ∧
      Runs (handled (perform drive)) (main (prog :: rest)) fresh
        (expected G root (rest.headD [])).1 w' := by
  have hword : word drive.image 11 ≠ some 0 := by
    rw [fatInfo_word h.header]
    exact fun hzero => h.sectors (Option.some.inj hzero)
  have hread := readFatInfo_reads hword
  rw [h.header] at hread
  obtain ⟨w', hprinted, hls⟩ := stored_follows h hz root fresh
  refine ⟨w', hprinted, ?_⟩
  apply runs_call (a := true) rfl
  apply runs_next (hread _)
  rw [hroot] at hls
  cases rest with
  | nil => exact hls (argument []) 0 [] [] rfl rfl
  | cons path rest => exact hls (argument path) 0 [] [] rfl rfl

/-- On an image that holds a graph of directories the program does what the path asks for in
the graph, and nothing else: it prints the names of the entries of the directory that the path
leads to, or says which name is the first one that leads nowhere. Only a path that does not end
with a delimiter is its undoing, after the names in front have been found. -/
theorem main_lists (root : Dir) (h : Stored drive.image info G place)
    (hroot : place root = info.firstRootDirSecNum) (hz : 0 ∉ rest.headD []) (ho : o ≠ .cut) :
    (∃ w', w'.printed = lines ∧
      Runs (handled (perform drive)) (main (prog :: rest)) fresh o w') ↔
        (o, lines) = expected G root (rest.headD []) := by
  obtain ⟨w', hprinted, hr⟩ := main_follows prog h hroot hz
  constructor
  · rintro ⟨w'', rfl, hr'⟩
    have hcut : (expected G root (rest.headD [])).1 ≠ .cut := by
      rw [expected]
      split
      · exact fun he => by cases he
      · split <;> exact fun he => by cases he
    obtain ⟨hout, rfl⟩ := runs_deterministic _ _ hr' hr ho hcut
    exact Prod.ext hout hprinted
  · intro he
    rw [← he] at hprinted hr
    exact ⟨w', hprinted, hr⟩

end program

/-- A file and a directory that leads back. -/
def circle : DirGraph Bytes Bool :=
  ⟨fun d => bif d then [(ascii "A", some false), (ascii "F.X", none)]
    else [(ascii "..", some true)]⟩

def circleImage : Drive :=
  small ([0, 0, 0, 0, 0xff, 0xff] ++ List.replicate 26 0)
    [record (ascii "A          ") 0x10 2 0, record (ascii "F       X  ") 0x20 0 0,
      record (ascii "..         ") 0x10 0 0]

theorem circle_stored : Stored circleImage.image smallInfo circle (bif · then 3 else 5) where
  header := by decide +kernel
  sectors := by decide
  placed := by decide
  compact d := by
    cases d with
    | true => exact ⟨_, .root⟩
    | false =>
      have hfat : fatEntry circleImage.image smallInfo 2 = some 0xffff := by decide +kernel
      exact ⟨_, .cluster (c := 2) (by decide) (by decide) hfat rfl⟩
  entries d := by
    have hfile : Describes smallInfo (fun d : Bool => bif d then 3 else 5)
        ⟨ascii "F       X  ", 0x20, 0⟩ (ascii "F.X", none) :=
      ⟨⟨⟨ascii "F", ascii "X", by decide, by decide, by decide, by decide, by decide⟩,
        by decide, by decide, by decide, by decide⟩, fun _ => rfl, fun h => absurd h (by decide)⟩
    have hdown : Describes smallInfo (fun d : Bool => bif d then 3 else 5)
        ⟨ascii "A          ", 0x10, 2⟩ (ascii "A", some false) :=
      ⟨⟨⟨ascii "A", [], by decide, by decide, by decide, by decide, by decide⟩,
        by decide, by decide, by decide, by decide⟩, fun h => absurd h (by decide),
          fun _ => ⟨false, rfl, rfl⟩⟩
    have hup : Describes smallInfo (fun d : Bool => bif d then 3 else 5)
        ⟨ascii "..         ", 0x10, 0⟩ (ascii "..", some true) :=
      ⟨⟨parentName, by decide, by decide, by decide, by decide⟩, fun h => absurd h (by decide),
        fun _ => ⟨true, rfl, rfl⟩⟩
    cases d with
    | true =>
      exact ⟨_, ⟨2, by decide, by decide +kernel, .inl rfl, by decide +kernel⟩,
        .cons hdown (.cons hfile .nil)⟩
    | false =>
      exact ⟨_, ⟨1, by decide, by decide +kernel, .inl rfl, by decide +kernel⟩, .cons hup .nil⟩

theorem main_lists_circle : ∃ w', w'.printed = [ascii "A", ascii "F.X"] ∧
    Runs (handled (perform circleImage)) (main [ascii "drive-ls", ascii "A/../"]) fresh
      (.returned ()) w' :=
  (main_lists true circle_stored rfl (by decide) (by rintro ⟨⟩)).mpr rfl

end Ti3.Fat.Volume
