import Ti3.Library.CString

namespace Ti3.Library.CMemory

open CString

/-- An array of `n` bytes. -/
structure Buffer (n : Nat) where
  bytes : Bytes
  size : bytes.length = n
  deriving DecidableEq

/-- A pointer into one buffer, or one computed from the null pointer. -/
inductive Pointer where
  | null (offset : Int)
  | inside (index : Int)
  deriving DecidableEq

namespace Pointer

def move : Pointer → Int → Pointer
  | null o, k => null (o + k)
  | inside i, k => inside (i + k)

end Pointer

variable {n : Nat}

namespace Buffer

def zeros (n : Nat) : Buffer n := ⟨List.replicate n 0, List.length_replicate⟩

/-- The buffer with other bytes at its start. -/
def fill (m : Buffer n) (s : Bytes) : Buffer n :=
  ⟨(s ++ m.bytes.drop s.length).take n, by
    rw [List.length_take, List.length_append, List.length_drop, m.size]
    omega⟩

/-- Stores outside the buffer have no result, and neither have those through
null pointers. -/
def store (m : Buffer n) (c : UInt8) : Pointer → Option (Buffer n)
  | .null _ => none
  | .inside i =>
    if 0 ≤ i ∧ i < n then some ⟨m.bytes.set i.toNat c, by rw [List.length_set, m.size]⟩ else none

/-- The string a pointer points to. -/
def string (m : Buffer n) : Pointer → Option Bytes
  | .null _ => none
  | .inside i =>
    if 0 ≤ i ∧ 0 ∈ m.bytes.drop i.toNat then some ((m.bytes.drop i.toNat).takeWhile (· ≠ 0))
    else none

/-- The first place of a byte in a string, or the null pointer. -/
def strchr (m : Buffer n) (p : Pointer) (c : UInt8) : Option Pointer :=
  (m.string p).map (fun s => match s.idxOf? c with
    | some k => p.move k
    | none => .null 0)

def storeAll (m : Buffer n) (p : Pointer) : Bytes → Option (Buffer n)
  | [] => some m
  | c :: s => (m.store c p).bind (fun m => m.storeAll (p.move 1) s)

def strcpy (m : Buffer n) (p : Pointer) (s : Bytes) : Option (Buffer n) := m.storeAll p (s ++ [0])

def strcat (m : Buffer n) (p : Pointer) (s : Bytes) : Option (Buffer n) :=
  (m.string p).bind (fun t => m.strcpy (p.move t.length) s)

def load (m : Buffer n) : Pointer → Option UInt8
  | .null _ => none
  | .inside i => if 0 ≤ i then m.bytes[i.toNat]? else none

def memset (m : Buffer n) (p : Pointer) (c : UInt8) (k : Nat) : Option (Buffer n) :=
  m.storeAll p (List.replicate k c)

/-- At most `k` bytes of a string, with zeros up to `k`. Nothing is read behind
the end of the source. -/
def strncpy (m : Buffer n) (p : Pointer) (source : Bytes) (k : Nat) : Option (Buffer n) :=
  let s := (source.take k).takeWhile (· ≠ 0)
  if source.length < k ∧ 0 ∉ source then none
  else m.storeAll p (s ++ List.replicate (k - s.length) 0)

/-- The first place of any of the bytes in a string, or the null pointer. -/
def strpbrk (m : Buffer n) (p : Pointer) (accept : Bytes) : Option Pointer :=
  (m.string p).map (fun s => match s.findIdx? (· ∈ accept) with
    | some k => p.move k
    | none => .null 0)

end Buffer

variable {m : Buffer n} {u v s : Bytes} {c d : UInt8}

theorem fill_fits (hs : s.length ≤ n) : (m.fill s).bytes = s ++ m.bytes.drop s.length := by
  apply List.take_of_length_le
  rw [List.length_append, List.length_drop, m.size]
  omega

theorem takeWhile_behind (hs : 0 ∉ s) :
    (s ++ v).takeWhile (· ≠ 0) = s ++ v.takeWhile (· ≠ 0) := by
  have hp : ∀ b ∈ s, decide (b ≠ 0) = true := fun b hb =>
    decide_eq_true (fun h => hs (h ▸ hb))
  rw [List.takeWhile_append_of_pos hp]

theorem takeWhile_whole (hs : 0 ∉ s) : s.takeWhile (· ≠ 0) = s := by
  have h : (s ++ []).takeWhile (· ≠ 0) = s ++ [] := takeWhile_behind hs
  rwa [List.append_nil] at h

theorem takeWhile_string (hs : 0 ∉ s) : (s ++ 0 :: v).takeWhile (· ≠ 0) = s := by
  rw [takeWhile_behind hs]
  simp

theorem takeWhile_padded (k : Nat) :
    (s ++ List.replicate k 0).takeWhile (· ≠ 0) = s.takeWhile (· ≠ 0) := by
  induction s with
  | nil => cases k <;> simp [List.replicate_succ]
  | cons b s ih =>
    by_cases hb : b = 0
    · simp [hb]
    · simpa [hb] using ih

/-- An array that ends with a zero starts with a string. -/
theorem exists_string (s : Bytes) :
    ∃ v, s ++ [0] = s.takeWhile (· ≠ 0) ++ 0 :: v ∧ 0 ∉ s.takeWhile (· ≠ 0) := by
  induction s with
  | nil => exact ⟨[], rfl, List.not_mem_nil⟩
  | cons b s ih =>
    by_cases hb : b = 0
    · exact ⟨s ++ [0], by simp [hb], by simp [hb]⟩
    · obtain ⟨v, hv, hs⟩ := ih
      refine ⟨v, ?_, ?_⟩
      · simpa [hb] using hv
      · simpa [hb, Ne.symm hb] using hs

variable {i : Int}

theorem string_inside (hm : m.bytes = u ++ s ++ 0 :: v) (hi : i = u.length) (hs : 0 ∉ s) :
    m.string (.inside i) = some s := by
  have hd : m.bytes.drop i.toNat = s ++ 0 :: v := by
    rw [hm, hi, Int.toNat_natCast, List.append_assoc, List.drop_left]
  simp only [Buffer.string, hd, takeWhile_string hs]
  rw [if_pos ⟨by omega, by simp⟩]

theorem string_fill_zero (hl : s.length ≤ n) (h₀ : 0 ∈ s) :
    (m.fill s).string (.inside 0) = some (s.takeWhile (· ≠ 0)) := by
  obtain ⟨u, v, rfl, hu⟩ := List.eq_append_cons_of_mem h₀
  have hfill := fill_fits (m := m) hl
  rw [List.append_assoc, List.cons_append] at hfill
  rw [takeWhile_string hu]
  exact string_inside (u := []) hfill rfl hu

/-- Without a zero, bytes are continued by what the array holds behind them. -/
theorem string_fill_open (hl : s.length ≤ n) (h₀ : 0 ∉ s) :
    (m.fill s).string (.inside 0) =
      (m.string (.inside s.length)).map (fun t => s ++ t) := by
  rw [Buffer.string, Buffer.string, fill_fits hl, Int.toNat_zero, List.drop_zero,
    Int.toNat_natCast, takeWhile_behind h₀]
  by_cases h : 0 ∈ m.bytes.drop s.length
  · rw [if_pos ⟨Int.le_refl 0, List.mem_append_right s h⟩, if_pos ⟨Int.natCast_nonneg _, h⟩]
    rfl
  · rw [if_neg (fun hm => List.not_mem_append h₀ h hm.2), if_neg (fun hm => h hm.2)]
    rfl

/-- Whatever an array holds, bytes and a zero that are stored in it are a string up
to the first zero. -/
theorem string_fill (m : Buffer n) (h : s.length < n) :
    (m.fill (s ++ [0])).string (.inside 0) = some (s.takeWhile (· ≠ 0)) := by
  have hl : (s ++ [0]).length ≤ n := by
    rw [List.length_append, List.length_singleton]
    omega
  rw [string_fill_zero hl (List.mem_append_right s (List.mem_singleton.mpr rfl))]
  exact congrArg some (takeWhile_padded 1)

theorem store_inside (hm : m.bytes = u ++ d :: v) (hi : i = u.length) (c : UInt8) :
    ∃ m', m.store c (.inside i) = some m' ∧ m'.bytes = u ++ c :: v := by
  have hl : u.length < n := by
    rw [← m.size, hm, List.length_append, List.length_cons]
    omega
  have hb : m.bytes.set i.toNat c = u ++ c :: v := by
    rw [hm, hi, Int.toNat_natCast, List.set_append_right _ _ (Nat.le_refl _), Nat.sub_self,
      List.set_cons_zero]
  exact ⟨_, if_pos ⟨by omega, by omega⟩, hb⟩

theorem storeAll_inside {old : Bytes} (hm : m.bytes = u ++ old ++ v) (hi : i = u.length)
    (hl : old.length = s.length) :
    ∃ m', m.storeAll (.inside i) s = some m' ∧ m'.bytes = u ++ s ++ v := by
  induction s generalizing m u old i with
  | nil =>
    rw [List.length_eq_zero_iff.mp hl] at hm
    exact ⟨m, rfl, hm⟩
  | cons c s ih =>
    obtain ⟨d, old, rfl⟩ := List.exists_cons_of_length_eq_add_one hl
    rw [List.append_assoc, List.cons_append] at hm
    obtain ⟨m₁, hs, hm₁⟩ := store_inside hm hi c
    rw [List.append_cons, ← List.append_assoc] at hm₁
    obtain ⟨m₂, ha, hm₂⟩ := ih (i := i + 1) hm₁ (by simp [hi]) (Nat.succ.inj hl)
    refine ⟨m₂, ?_, ?_⟩
    · simp only [Buffer.storeAll, hs, Option.bind_some, Pointer.move, ha]
    · rw [hm₂, ← List.append_cons]

/-- Whatever an array holds, a string that fits can be copied into it. -/
theorem strcpy_fits {t : Bytes} (hm : m.bytes = u ++ v) (hi : i = u.length)
    (hl : t.length < v.length) :
    ∃ m' v', m.strcpy (.inside i) t = some m' ∧ m'.bytes = u ++ t ++ 0 :: v' := by
  have hsplit : m.bytes = u ++ v.take (t.length + 1) ++ v.drop (t.length + 1) := by
    rw [hm, List.append_assoc, List.take_append_drop]
  obtain ⟨m', hc, hm'⟩ := storeAll_inside hsplit hi (s := t ++ [0]) (by simp; omega)
  refine ⟨m', v.drop (t.length + 1), hc, ?_⟩
  rw [hm', ← List.append_assoc, List.append_assoc, List.singleton_append]

theorem strcat_fits {t : Bytes} (hm : m.bytes = s ++ 0 :: v) (hs : 0 ∉ s)
    (hl : t.length ≤ v.length) :
    ∃ m' v', m.strcat (.inside 0) t = some m' ∧ m'.bytes = s ++ t ++ 0 :: v' := by
  have hstring : m.string (.inside 0) = some s := string_inside (u := []) hm rfl hs
  obtain ⟨m', v', hc, hm'⟩ := strcpy_fits hm (i := 0 + s.length) (t := t) (by omega)
    (Nat.lt_succ_of_le hl)
  refine ⟨m', v', ?_, hm'⟩
  simpa only [Buffer.strcat, hstring, Option.bind_some, Pointer.move] using hc

/-- A string with nothing but zeros behind it. -/
def Padded (m : Buffer n) (s : Bytes) (k : Nat) : Prop :=
  m.bytes = s ++ List.replicate k 0 ∧ 0 ∉ s

theorem padded_zeros : Padded (Buffer.zeros n) [] n := ⟨rfl, List.not_mem_nil⟩

theorem string_padded {k : Nat} (hm : Padded m s (k + 1)) : m.string (.inside 0) = some s :=
  string_inside (u := []) hm.1 rfl hm.2

theorem strcat_padded {k : Nat} {t : Bytes} (k' : Nat) (hm : Padded m s (k + 1)) (ht : 0 ∉ t)
    (hk : k = t.length + k') :
    ∃ m', m.strcat (.inside 0) t = some m' ∧ Padded m' (s ++ t) (k' + 1) := by
  have hm' : m.bytes = s ++ List.replicate (t.length + 1) 0 ++ List.replicate k' 0 := by
    rw [hm.1, hk, List.append_assoc, List.replicate_append_replicate, Nat.add_right_comm]
  obtain ⟨m₁, hs, hm₁⟩ := storeAll_inside hm' (i := 0 + s.length) (s := t ++ [0]) (by omega)
    (by simp)
  refine ⟨m₁, ?_, ?_, List.not_mem_append hm.2 ht⟩
  · simp only [Buffer.strcat, string_padded hm, Option.bind_some, Pointer.move]
    exact hs
  · rw [hm₁, Nat.add_comm, ← List.replicate_append_replicate]
    simp

theorem strcpy_padded {k : Nat} {t : Bytes} (k' : Nat) (hm : Padded m [] (k + 1)) (ht : 0 ∉ t)
    (hk : k = t.length + k') :
    ∃ m', m.strcpy (.inside 0) t = some m' ∧ Padded m' t (k' + 1) := by
  have h := strcat_padded k' hm ht hk
  simp only [Buffer.strcat, string_padded hm, Option.bind_some] at h
  exact h

theorem idxOf_split (hu : c ∉ u) : (u ++ c :: v).idxOf? c = some u.length := by
  induction u with
  | nil => simp [List.idxOf?_cons]
  | cons b u ih =>
    obtain ⟨hb, hu⟩ := not_or.mp (fun h => hu (List.mem_cons.mpr h))
    simp [List.idxOf?_cons, Ne.symm hb, ih hu]

theorem strchr_found {p : Pointer} (hm : m.string p = some (u ++ c :: v)) (hu : c ∉ u) :
    m.strchr p c = some (p.move u.length) := by
  simp only [Buffer.strchr, hm, Option.map_some, idxOf_split hu]

theorem strchr_missing {p : Pointer} (hm : m.string p = some s) (hs : c ∉ s) :
    m.strchr p c = some (.null 0) := by
  simp only [Buffer.strchr, hm, Option.map_some, List.idxOf?_eq_none_iff.mpr hs]

theorem load_inside (hm : m.bytes = u ++ d :: v) (hi : i = u.length) :
    m.load (.inside i) = some d := by
  have h : m.bytes[i.toNat]? = some d := by
    rw [hm, hi, Int.toNat_natCast, List.getElem?_append_right (Nat.le_refl _), Nat.sub_self,
      List.getElem?_cons_zero]
  exact (if_pos (by omega)).trans h

/-- As many bytes as are asked for, none of them a zero, are copied as they are. -/
theorem strncpy_whole {old : Bytes} {k : Nat} (rest : Bytes) (hm : m.bytes = u ++ old ++ v)
    (hi : i = u.length) (hs : 0 ∉ s) (hk : s.length = k) (hl : old.length = k) :
    ∃ m', m.strncpy (.inside i) (s ++ rest) k = some m' ∧ m'.bytes = u ++ s ++ v := by
  have htake : ((s ++ rest).take k).takeWhile (· ≠ 0) = s := by
    rw [List.take_left' hk, takeWhile_whole hs]
  have hfits : ¬((s ++ rest).length < k ∧ 0 ∉ s ++ rest) := by
    rw [List.length_append]
    omega
  obtain ⟨m', hstore, hm'⟩ := storeAll_inside hm hi (hl.trans hk.symm)
  refine ⟨m', ?_, hm'⟩
  simpa only [Buffer.strncpy, htake, if_neg hfits, hk, Nat.sub_self, List.replicate_zero,
    List.append_nil] using hstore

theorem strpbrk_found {p : Pointer} {accept : Bytes} (hm : m.string p = some (u ++ c :: v))
    (hu : ∀ b ∈ u, b ∉ accept) (hc : c ∈ accept) :
    m.strpbrk p accept = some (p.move u.length) := by
  have hnone : u.findIdx? (· ∈ accept) = none := by simpa [List.findIdx?_eq_none_iff] using hu
  have hfind : (u ++ c :: v).findIdx? (· ∈ accept) = some u.length := by
    simp [List.findIdx?_append, hnone, List.findIdx?_cons, hc]
  simp only [Buffer.strpbrk, hm, Option.map_some, hfind]

theorem strpbrk_missing {p : Pointer} {accept : Bytes} (hm : m.string p = some s)
    (hs : ∀ b ∈ s, b ∉ accept) : m.strpbrk p accept = some (.null 0) := by
  have hnone : s.findIdx? (· ∈ accept) = none := by simpa [List.findIdx?_eq_none_iff] using hs
  simp only [Buffer.strpbrk, hm, Option.map_some, hnone]

end Ti3.Library.CMemory
