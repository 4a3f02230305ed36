import Ti3.Fat.DriveLs

namespace Ti3.Fat.FileNames

open Library.CString Library.CMemory DriveLs

def blank : UInt8 := 0x20
def dot : UInt8 := 46

/-- A name in the FAT format, without the blanks behind its parts. -/
structure FatName where
  base : Bytes
  extension : Bytes
  base_ne : base ≠ []
  base_le : base.length ≤ 8
  extension_le : extension.length ≤ 3
  base_printed : blank ∉ base ∧ 0 ∉ base
  extension_printed : blank ∉ extension ∧ 0 ∉ extension

def blanks (k : Nat) : Bytes := List.replicate k blank

namespace FatName

def bytes (n : FatName) : Bytes :=
  (n.base ++ blanks (8 - n.base.length)) ++ (n.extension ++ blanks (3 - n.extension.length))

/-- The name in the *.* format. -/
def text (n : FatName) : Bytes := if n.extension = [] then n.base else n.base ++ dot :: n.extension

/-- The dot of the *.* format is in neither part. -/
def Plain (n : FatName) : Prop := dot ∉ n.base ∧ dot ∉ n.extension

instance (n : FatName) : Decidable n.Plain := inferInstanceAs (Decidable (_ ∧ _))

/-- There is a place for the dot, or none is needed. -/
def Writable (n : FatName) : Prop := n.base.length < 8 ∨ n.extension = []

instance (n : FatName) : Decidable n.Writable := inferInstanceAs (Decidable (_ ∨ _))

end FatName

/-- The array starts with the name. -/
def Holds (inName : Buffer nameBytes) (n : FatName) : Prop := n.bytes <+: inName.bytes

variable {n n' : FatName} {inName : Buffer nameBytes} {outName : Buffer (nameBytes + 1)}
variable {u v s : Bytes} {k : Nat}

theorem blanks_succ : blanks (k + 1) = blank :: blanks k := rfl

theorem blanks_append (j k : Nat) : blanks j ++ blanks k = blanks (j + k) :=
  List.replicate_append_replicate

theorem zero_not_mem_blanks : 0 ∉ blanks k := by
  intro h
  cases List.eq_of_mem_replicate h

theorem length_blanks : (blanks k).length = k := List.length_replicate

theorem length_padded {l : Nat} (h : s.length ≤ l) :
    (s ++ blanks (l - s.length)).length = l := by
  rw [List.length_append, length_blanks]
  omega

/-- Copying the first part into the cleaned array. -/
theorem first_part (outName : Buffer (nameBytes + 1)) (h : Holds inName n) :
    ∃ m c, ((outName.memset start 0 nameBytes).bind
        (fun m => m.strncpy start inName.bytes 8)) = some m ∧
      m.bytes = n.base ++ blanks (8 - n.base.length) ++ List.replicate 4 0 ++ [c] := by
  obtain ⟨rest, hrest⟩ := h
  obtain ⟨c, hc⟩ : ∃ c, outName.bytes.drop 12 = [c] := by
    rw [← List.length_eq_one_iff, List.length_drop, outName.size]
    rfl
  have hout : outName.bytes = [] ++ outName.bytes.take 12 ++ [c] := by
    rw [← hc, List.nil_append, List.take_append_drop]
  have hlength : (outName.bytes.take 12).length =
      (List.replicate nameBytes (0 : UInt8)).length := by
    rw [List.length_take, outName.size, List.length_replicate]
    rfl
  obtain ⟨m, hm, hbytes⟩ := storeAll_inside hout (i := 0) rfl hlength
  have hclean : m.bytes = [] ++ List.replicate 8 0 ++ (List.replicate 4 0 ++ [c]) := by
    rw [hbytes]
    rfl
  have hpart : 0 ∉ n.base ++ blanks (8 - n.base.length) :=
    List.not_mem_append n.base_printed.2 zero_not_mem_blanks
  obtain ⟨m', hm', hbytes'⟩ := strncpy_whole (i := 0)
    (n.extension ++ blanks (3 - n.extension.length) ++ rest) hclean rfl hpart
    (length_padded n.base_le) List.length_replicate
  refine ⟨m', c, ?_, ?_⟩
  · rw [Buffer.memset, start, hm, Option.bind_some, ← hrest, FatName.bytes, List.append_assoc]
    exact hm'
  · rw [hbytes']
    simp

/-- Removing the blanks behind a name. -/
theorem cut_blanks {m : Buffer (nameBytes + 1)} (hm : m.bytes = s ++ blanks k ++ 0 :: v)
    (hs : blank ∉ s ∧ 0 ∉ s) : ∃ m', (do
      match ← m.strchr start 0x20 with
      | .null _ => some m
      | .inside e => m.store 0 (.inside e)) = some m' ∧ m'.string start = some s := by
  have hstring : m.string start = some (s ++ blanks k) :=
    string_inside (u := []) hm rfl (List.not_mem_append hs.2 zero_not_mem_blanks)
  cases k with
  | zero =>
    have hs' : blanks 0 = [] := rfl
    rw [hs', List.append_nil] at hstring
    have hnull : m.strchr start 0x20 = some (.null 0) := strchr_missing hstring hs.1
    refine ⟨m, ?_, hstring⟩
    simp only [hnull, Option.bind_eq_bind, Option.bind_some]
  | succ k =>
    rw [blanks_succ] at hm hstring
    have hm' : m.bytes = s ++ blank :: (blanks k ++ 0 :: v) := by
      rw [hm]
      simp
    have hfound : m.strchr start 0x20 = some (.inside (0 + s.length)) :=
      strchr_found hstring hs.1
    obtain ⟨m', hstore, hbytes⟩ := store_inside (i := 0 + s.length) hm' (by omega) 0
    refine ⟨m', ?_, string_inside (u := []) hbytes rfl hs.2⟩
    simpa only [hfound, Option.bind_eq_bind, Option.bind_some] using hstore

/-- Behind the first part there is a blank exactly when there is no extension. -/
theorem load_extension (h : Holds inName n) :
    ∃ d, inName.load (start.move 8) = some d ∧ (d = 0x20 ↔ n.extension = []) := by
  obtain ⟨rest, hrest⟩ := h
  have hlength := length_padded n.base_le
  have hi : 0 + 8 = ((n.base ++ blanks (8 - n.base.length)).length : Int) := by
    rw [hlength]
    rfl
  cases he : n.extension with
  | nil =>
    rw [FatName.bytes, he, List.append_assoc] at hrest
    exact ⟨0x20, load_inside hrest.symm hi, by simp⟩
  | cons d t =>
    rw [FatName.bytes, he, List.append_assoc] at hrest
    have hd : d ≠ 0x20 := fun hb =>
      n.extension_printed.1 (he ▸ hb ▸ List.mem_cons_self)
    exact ⟨d, load_inside hrest.symm hi, by simp [hd]⟩

/-- Three bytes are written over; what is left is blanks and then a zero. -/
theorem blanks_left (k : Nat) (c : UInt8) : ∃ old k' v,
    blanks k ++ List.replicate 4 0 ++ [c] = old ++ (blanks k' ++ 0 :: v) ∧ old.length = 3 := by
  match k with
  | 0 => exact ⟨[0, 0, 0], 0, [c], rfl, rfl⟩
  | 1 => exact ⟨[blank, 0, 0], 0, [0, c], rfl, rfl⟩
  | 2 => exact ⟨[blank, blank, 0], 0, [0, 0, c], rfl, rfl⟩
  | k + 3 => exact ⟨blanks 3, k, [0, 0, 0, c], by simp [blanks, List.replicate_succ], rfl⟩

/-- Placing the dot and the extension. -/
theorem second_part {m : Buffer (nameBytes + 1)} {c : UInt8} (h : Holds inName n)
    (hb : n.base.length < 8)
    (hm : m.bytes = n.base ++ blanks (8 - n.base.length) ++ List.replicate 4 0 ++ [c]) :
    ∃ m₁ m' k v, m.store 46 (.inside n.base.length) = some m₁ ∧
      m₁.strncpy ((Pointer.inside n.base.length).move 1) (inName.bytes.drop 8) 3 = some m' ∧
      m'.bytes = (n.base ++ dot :: n.extension) ++ blanks k ++ 0 :: v := by
  obtain ⟨rest, hrest⟩ := h
  obtain ⟨k, hk⟩ : ∃ k, 8 - n.base.length = k + 1 := ⟨7 - n.base.length, by omega⟩
  have hdrop : inName.bytes.drop 8 = (n.extension ++ blanks (3 - n.extension.length)) ++ rest := by
    rw [← hrest, FatName.bytes, List.append_assoc, List.drop_left' (length_padded n.base_le)]
  have hsplit : m.bytes = n.base ++ blank :: (blanks k ++ List.replicate 4 0 ++ [c]) := by
    rw [hm, hk, blanks_succ]
    simp
  obtain ⟨m₁, hstore, h₁⟩ := store_inside hsplit rfl 46
  obtain ⟨old, k', v, hold, hlength⟩ := blanks_left k c
  have h₁' : m₁.bytes = (n.base ++ [46]) ++ old ++ (blanks k' ++ 0 :: v) := by
    rw [h₁, hold]
    simp
  obtain ⟨m₂, hcopy, h₂⟩ := strncpy_whole (i := n.base.length + 1) rest h₁' (by simp)
    (List.not_mem_append n.extension_printed.2 zero_not_mem_blanks)
    (length_padded n.extension_le) hlength
  refine ⟨m₁, m₂, 3 - n.extension.length + k', v, hstore, ?_, ?_⟩
  · rw [hdrop]
    exact hcopy
  · rw [h₂, ← blanks_append]
    simp [dot]

theorem text_printed (n : FatName) : blank ∉ n.text ∧ 0 ∉ n.text := by
  rw [FatName.text]
  by_cases he : n.extension = []
  · rw [if_pos he]
    exact n.base_printed
  · rw [if_neg he]
    constructor
    · simpa [n.base_printed.1, n.extension_printed.1] using show blank ≠ dot by decide
    · simpa [n.base_printed.2, n.extension_printed.2] using show (0 : UInt8) ≠ dot by decide

/-- The end of the first part is found where it is padded. -/
theorem first_blank {m : Buffer (nameBytes + 1)} {c : UInt8}
    (hm : m.bytes = n.base ++ blanks (8 - n.base.length) ++ List.replicate 4 0 ++ [c]) :
    m.strpbrk start (ascii " ") =
      some (if n.base.length < 8 then .inside n.base.length else .null 0) := by
  have hstring : m.string start = some (n.base ++ blanks (8 - n.base.length)) :=
    string_inside (u := []) (v := [0, 0, 0, c]) (by rw [hm]; simp [List.replicate_succ]) rfl
      (List.not_mem_append n.base_printed.2 zero_not_mem_blanks)
  have hbase : ∀ b ∈ n.base, b ∉ ascii " " := by
    intro b hb hm
    cases List.mem_singleton.mp hm
    exact n.base_printed.1 hb
  by_cases hb : n.base.length < 8
  · obtain ⟨k, hk⟩ : ∃ k, 8 - n.base.length = k + 1 := ⟨7 - n.base.length, by omega⟩
    rw [hk, blanks_succ] at hstring
    have hfound := strpbrk_found hstring hbase (List.mem_singleton_self _)
    rw [if_pos hb, hfound, start, Pointer.move, Int.zero_add]
  · have hk : 8 - n.base.length = 0 := by omega
    rw [hk, blanks, List.replicate_zero, List.append_nil] at hstring
    rw [if_neg hb, strpbrk_missing hstring hbase]

/-- The steps behind the copy of the first part. -/
def finish (inName : Buffer nameBytes) (outName : Buffer (nameBytes + 1)) (firstEnd : Pointer) :
    Option (Buffer (nameBytes + 1)) := do
  let outName ←
    if (← inName.load (start.move 8)) ≠ 0x20 then do
      let outName ← outName.store 46 firstEnd
      outName.strncpy (firstEnd.move 1) (inName.bytes.drop 8) 3
    else some outName
  match ← outName.strchr start 0x20 with
  | .null _ => some outName
  | .inside e => outName.store 0 (.inside e)

theorem sprintFilename_eq (outName : Buffer (nameBytes + 1)) (h : Holds inName n) :
    ∃ m c, m.bytes = n.base ++ blanks (8 - n.base.length) ++ List.replicate 4 0 ++ [c] ∧
      sprintFilename outName inName =
        finish inName m (if n.base.length < 8 then .inside n.base.length else .null 0) := by
  obtain ⟨m, c, hm, hbytes⟩ := first_part outName h
  obtain ⟨m₀, h₀, h₁⟩ := Option.bind_eq_some_iff.mp hm
  refine ⟨m, c, hbytes, ?_⟩
  simp only [sprintFilename, h₀, h₁, first_blank hbytes, Option.bind_eq_bind, Option.bind_some]
  rfl

theorem sprintFilename_writes (outName : Buffer (nameBytes + 1)) (h : Holds inName n)
    (hw : n.Writable) :
    ∃ m, sprintFilename outName inName = some m ∧ m.string start = some n.text := by
  obtain ⟨m, c, hbytes, hp⟩ := sprintFilename_eq outName h
  obtain ⟨d, hload, hd⟩ := load_extension h
  have htext := text_printed n
  rw [hp]
  rw [FatName.text] at htext ⊢
  by_cases he : n.extension = []
  · rw [if_pos he] at htext ⊢
    have hbytes' : m.bytes = n.base ++ blanks (8 - n.base.length) ++ 0 :: [0, 0, 0, c] := by
      rw [hbytes, List.append_assoc]
      rfl
    obtain ⟨m', hcut, hstring⟩ := cut_blanks hbytes' htext
    refine ⟨m', ?_, hstring⟩
    simpa only [finish, hload, hd.mpr he, ne_eq, not_true, if_false, Option.bind_eq_bind,
      Option.bind_some] using hcut
  · rw [if_neg he] at htext ⊢
    have hb := hw.resolve_right he
    obtain ⟨m₁, m₂, k, v, hstore, hcopy, hbytes₂⟩ := second_part h hb hbytes
    obtain ⟨m', hcut, hstring⟩ := cut_blanks hbytes₂ htext
    refine ⟨m', ?_, hstring⟩
    simpa only [finish, hload, if_pos hb, ne_eq, hd, he, not_false_eq_true, if_true, hstore,
      hcopy, Option.bind_eq_bind, Option.bind_some] using hcut

/-- Without a blank in the first part the dot is stored through the null pointer. -/
theorem sprintFilename_null (outName : Buffer (nameBytes + 1)) (h : Holds inName n)
    (hw : ¬ n.Writable) : sprintFilename outName inName = none := by
  obtain ⟨m, c, -, hp⟩ := sprintFilename_eq outName h
  obtain ⟨d, hload, hd⟩ := load_extension h
  obtain ⟨hb, he⟩ := not_or.mp hw
  simp only [hp, finish, hload, if_neg hb, ne_eq, hd, he, not_false_eq_true, if_true,
    Option.bind_eq_bind, Option.bind_some, Buffer.store, Option.bind_none]

/-- A name is written as it should be exactly when it has a place for the dot or no
extension. -/
theorem sprintFilename_iff (outName : Buffer (nameBytes + 1)) (h : Holds inName n) :
    (∃ m, sprintFilename outName inName = some m ∧ m.string start = some n.text) ↔
      n.Writable := by
  refine ⟨fun ⟨m, hm, _⟩ => ?_, sprintFilename_writes outName h⟩
  by_contra hw
  rw [sprintFilename_null outName h hw] at hm
  cases hm

theorem length_bytes (n : FatName) : n.bytes.length = 11 := by
  rw [FatName.bytes, List.length_append, length_padded n.base_le, length_padded n.extension_le]

/-- The name as an entry of a directory holds it, with a zero behind it. -/
def FatName.array (n : FatName) : Buffer nameBytes :=
  ⟨n.bytes ++ [0], by
    rw [List.length_append, length_bytes]
    rfl⟩

theorem holds_array (n : FatName) : Holds n.array n := List.prefix_append _ _

/-- A name that fills its first part. -/
def fullName : FatName :=
  ⟨ascii "ABCDEFGH", ascii "TXT", by decide, by decide, by decide, by decide, by decide⟩

theorem sprintFilename_iff_full : (∃ m, sprintFilename (Buffer.zeros _) fullName.array = some m ∧
    m.string start = some fullName.text) ↔ fullName.Writable :=
  sprintFilename_iff (Buffer.zeros _) (holds_array fullName)

theorem full_name_unwritten : ¬ ∀ (n : FatName) (inName : Buffer nameBytes)
    (outName : Buffer (nameBytes + 1)), Holds inName n →
      ∃ m, sprintFilename outName inName = some m ∧ m.string start = some n.text := by
  intro hall
  obtain ⟨m, hm, -⟩ := hall fullName fullName.array (Buffer.zeros _) (holds_array fullName)
  have hnull := sprintFilename_null (Buffer.zeros _) (holds_array fullName) (by decide)
  cases hnull.symm.trans hm

theorem text_split (hn : n.Plain) : cut dot n.text =
    if n.extension = [] then none else some (n.base, n.extension) := by
  rw [FatName.text]
  by_cases he : n.extension = []
  · rw [if_pos he, if_pos he, cut_eq_none]
    exact hn.1
  · rw [if_neg he, if_neg he, cut_append hn.1]

/-- A name can be read back from what is written for it. -/
theorem text_injective (hn : n.Plain) (hn' : n'.Plain) (h : n.text = n'.text) : n = n' := by
  have hcut := congrArg (cut dot) h
  rw [text_split hn, text_split hn'] at hcut
  have hparts : n.base = n'.base ∧ n.extension = n'.extension := by
    by_cases he : n.extension = []
    · by_cases he' : n'.extension = []
      · rw [FatName.text, FatName.text, if_pos he, if_pos he'] at h
        exact ⟨h, he.trans he'.symm⟩
      · rw [if_pos he, if_neg he'] at hcut
        cases hcut
    · by_cases he' : n'.extension = []
      · rw [if_neg he, if_pos he'] at hcut
        cases hcut
      · rw [if_neg he, if_neg he'] at hcut
        exact Prod.mk.inj (Option.some.inj hcut)
  cases n
  cases n'
  obtain ⟨rfl, rfl⟩ := hparts
  rfl

theorem sprintFilename_text {m : Buffer (nameBytes + 1)} (h : Holds inName n)
    (hm : sprintFilename outName inName = some m) : m.string start = some n.text := by
  by_cases hw : n.Writable
  · obtain ⟨m', hm', hstring⟩ := sprintFilename_writes outName h hw
    cases hm.symm.trans hm'
    exact hstring
  · rw [sprintFilename_null outName h hw] at hm
    cases hm

end Ti3.Fat.FileNames
