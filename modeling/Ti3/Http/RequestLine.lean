import Ti3.Http.Server

namespace Ti3.Http.RequestLine

open Library.CString Library.CMemory Server

def fileFor (uri : Bytes) : Bytes := if uri = [] then ascii "index.html" else uri

/-- What is done with the part of a request line behind the first slash. -/
def targetRequest (target : Bytes) : Option Request :=
  match cut blank target with
  | none => none
  | some (uri, httpVersion) =>
    match cut dot httpVersion with
    | none => none
    | some (major, minor) =>
      if major ++ dot :: minor.take 1 = ascii "HTTP/1.0" then some (.accepted (fileFor uri))
      else some (.rejected .status501)

/-- What is done with a request line, given without its newline. -/
def lineRequest (line : Bytes) : Option Request :=
  match cut slash line with
  | none => none
  | some (method, target) =>
    if method = [] then none
    else if method.dropLast = ascii "GET" then targetRequest target
    else some (.rejected .status501)

/-- What is done with the string in the buffer. -/
def stringRequest (s : Bytes) : Option Request :=
  match cut newline s with
  | none => some (.rejected .status400)
  | some (line, _) => lineRequest line

theorem targetRequest_ne (target : Bytes) :
    targetRequest target ≠ some (.rejected .status400) := by
  rw [targetRequest]
  split
  · nofun
  · split
    · nofun
    · split <;> simp

theorem lineRequest_ne (line : Bytes) : lineRequest line ≠ some (.rejected .status400) := by
  rw [lineRequest]
  split
  · nofun
  · split
    · nofun
    · split
      · exact targetRequest_ne _
      · simp

/-- Only a request without a newline is bad from the start. -/
theorem stringRequest_eq_badRequest {s : Bytes} :
    stringRequest s = some (.rejected .status400) ↔ newline ∉ s := by
  rw [← cut_eq_none, stringRequest]
  cases cut newline s with
  | none => simp
  | some p => simpa using lineRequest_ne p.1

variable {m : RequestLine} {i : Int} {u v : Bytes}

theorem defaultUri_refines {uri : Bytes} (hm : m.bytes = u ++ uri ++ 0 :: v) (hi : i = u.length)
    (hs : 0 ∉ uri) (hv : 10 ≤ v.length) :
    (defaultUri m (.inside i)).map Prod.snd = some (.accepted (fileFor uri)) := by
  have hstring := string_inside hm hi hs
  by_cases he : uri = []
  · subst he
    have hm' : m.bytes = u ++ (0 :: v.take 10) ++ v.drop 10 := by
      rw [List.append_assoc, List.cons_append, List.take_append_drop, hm, List.append_nil]
    have hl : (0 :: v.take 10).length = (ascii "index.html" ++ [0]).length := by
      rw [List.length_cons, List.length_take, Nat.min_eq_left hv]
      decide
    obtain ⟨m₁, hc, hm₁⟩ := storeAll_inside hm' hi hl
    have hstring₁ : m₁.string (.inside i) = some (ascii "index.html") := by
      rw [← List.append_assoc, List.append_assoc] at hm₁
      exact string_inside hm₁ hi (by decide)
    simp [defaultUri, Buffer.strcpy, hstring, hc, hstring₁, fileFor]
  · simp [defaultUri, hstring, he, fileFor]

theorem not_mem_line {c : UInt8} {s : Bytes} (hs : c ∉ s) (hc : c ≠ newline) :
    c ∉ s ++ [newline] := by
  simp [hs, hc]

theorem eq_zero_of_version {c : UInt8} {s : Bytes} (h : s ++ [c] = ascii "HTTP/1.0") :
    c = 48 := by
  have hl : ascii "HTTP/1.0" = ascii "HTTP/1." ++ [48] := by decide
  rw [hl] at h
  exact List.singleton_inj.mp (List.append_inj_right' h rfl)

/-- The end of `check_version`, once a dot has been found. -/
theorem versionDot_refines {uri major w : Bytes} {c d : UInt8}
    (hm : m.bytes = u ++ uri ++ 0 :: (major ++ dot :: c :: d :: w)) (hi : i = u.length)
    (hu : 0 ∉ uri) (h₀ : 0 ∉ major) (hc : c ≠ 0) (hw : c = newline ∨ 1 ≤ w.length) :
    ((m.store 0 (.inside (i + uri.length + 1 + major.length + 2))).bind (fun m =>
      (m.string (.inside (i + uri.length + 1))).bind (fun s =>
        if s ≠ ascii "HTTP/1.0" then some (m, .rejected .status501)
        else defaultUri m (.inside i)))).map Prod.snd =
      if major ++ [dot, c] = ascii "HTTP/1.0" then some (.accepted (fileFor uri))
      else some (.rejected .status501) := by
  have hsplit : m.bytes = (u ++ uri ++ 0 :: (major ++ [dot, c])) ++ d :: w := by
    rw [hm]
    simp
  obtain ⟨m₁, hstore, hm₁⟩ := store_inside hsplit (i := i + uri.length + 1 + major.length + 2)
    (by simp [hi]; omega) 0
  have hs : 0 ∉ major ++ [dot, c] := by simp [h₀, Ne.symm hc, dot]
  have hm₂ : m₁.bytes = (u ++ uri ++ [0]) ++ (major ++ [dot, c]) ++ 0 :: w := by
    rw [hm₁]
    simp
  have hversion := string_inside hm₂ (i := i + uri.length + 1) (by simp [hi]; omega) hs
  rw [hstore, Option.bind_some, hversion, Option.bind_some]
  by_cases he : major ++ [dot, c] = ascii "HTTP/1.0"
  · have hc' : c ≠ newline := by
      rw [List.append_cons] at he
      rw [eq_zero_of_version he]
      decide
    rw [if_neg (not_not.mpr he), if_pos he]
    have hm₃ : m₁.bytes = u ++ uri ++ 0 :: (major ++ [dot, c] ++ 0 :: w) := by
      rw [hm₂]
      simp
    apply defaultUri_refines hm₃ hi hu
    have hl : (ascii "HTTP/1.0").length = 8 := by decide
    have hw' := hw.resolve_left hc'
    rw [he, List.length_append, List.length_cons]
    omega
  · rw [if_pos he, if_neg he]
    rfl

theorem checkVersion_refines {target : Bytes} (hm : m.bytes = u ++ target ++ newline :: 0 :: v)
    (hi : i = u.length) (ht : 0 ∉ target) :
    (checkVersion m (.inside i)).map Prod.snd = targetRequest target := by
  have hs := not_mem_line ht (by decide)
  have hm₀ : m.bytes = u ++ (target ++ [newline]) ++ 0 :: v := by
    rw [hm]
    simp
  have hstring := string_inside hm₀ hi hs
  rw [checkVersion, targetRequest]
  cases hb : cut blank target with
  | none =>
    have hn := not_mem_line (cut_eq_none.mp hb) (by decide)
    simp [strchr_missing hstring hn, Pointer.move, Buffer.store]
  | some p =>
    obtain ⟨uri, version⟩ := p
    obtain ⟨rfl, hu⟩ := cut_eq_some.mp hb
    have hblank : m.strchr (.inside i) blank = some (.inside (i + uri.length)) := by
      rw [List.append_assoc, List.cons_append] at hstring
      exact strchr_found hstring hu
    have hsplit : m.bytes = (u ++ uri) ++ blank :: (version ++ newline :: 0 :: v) := by
      rw [hm]
      simp
    obtain ⟨m₁, hstore, hm₁⟩ := store_inside hsplit (i := i + uri.length + 1 + -1)
      (by rw [hi, List.length_append]; omega) 0
    have h₀ : 0 ∉ uri ∧ 0 ∉ version := by simpa [blank] using ht
    have hversion : m₁.string (.inside (i + uri.length + 1)) = some (version ++ [newline]) := by
      have hm₂ : m₁.bytes = (u ++ uri ++ [0]) ++ (version ++ [newline]) ++ 0 :: v := by
        rw [hm₁]
        simp
      exact string_inside hm₂ (by simp [hi]; omega) (not_mem_line h₀.2 (by decide))
    simp only [hblank, Option.bind_eq_bind, Option.bind_some, Pointer.move, hstore]
    cases hd : cut dot version with
    | none =>
      have hn := not_mem_line (cut_eq_none.mp hd) (by decide)
      simp [strchr_missing hversion hn, Buffer.store]
    | some p =>
      obtain ⟨major, minor⟩ := p
      obtain ⟨rfl, hv⟩ := cut_eq_some.mp hd
      have hmajor : 0 ∉ major := fun h => h₀.2 (List.mem_append_left _ h)
      have hdot : m₁.strchr (.inside (i + uri.length + 1)) dot =
          some (.inside (i + uri.length + 1 + major.length)) := by
        rw [List.append_assoc, List.cons_append] at hversion
        exact strchr_found hversion hv
      simp only [hdot, Option.bind_some]
      cases minor with
      | nil =>
        have hne {c : UInt8} {s : Bytes} (hc : c ≠ 48) : s ++ [c] ≠ ascii "HTTP/1.0" :=
          fun h => hc (eq_zero_of_version h)
        have hm₂ : m₁.bytes = u ++ uri ++ 0 :: (major ++ dot :: newline :: 0 :: v) := by
          rw [hm₁]
          simp
        refine (versionDot_refines hm₂ hi h₀.1 hmajor (by decide) (.inl rfl)).trans ?_
        rw [List.append_cons, if_neg (hne (by decide)), List.take_nil, if_neg (hne (by decide))]
      | cons c minor =>
        obtain ⟨d, w, hw, hl⟩ : ∃ d w, minor ++ newline :: 0 :: v = d :: w ∧ 1 ≤ w.length := by
          cases minor with
          | nil => exact ⟨newline, 0 :: v, rfl, by simp⟩
          | cons d minor => exact ⟨d, minor ++ newline :: 0 :: v, rfl, by simp; omega⟩
        have hm₂ : m₁.bytes = u ++ uri ++ 0 :: (major ++ dot :: c :: d :: w) := by
          rw [hm₁, ← hw]
          simp
        have hc : c ≠ 0 := by
          rintro rfl
          exact h₀.2 (by simp)
        exact versionDot_refines hm₂ hi h₀.1 hmajor hc (.inr hl)

theorem checkMethod_refines {line : Bytes} (hm : m.bytes = line ++ newline :: 0 :: v)
    (hl : 0 ∉ line) : (checkMethod m).map Prod.snd = lineRequest line := by
  have hm₀ : m.bytes = [] ++ (line ++ [newline]) ++ 0 :: v := by
    rw [hm]
    simp
  have hstring : m.string start = some (line ++ [newline]) :=
    string_inside hm₀ rfl (not_mem_line hl (by decide))
  rw [checkMethod, lineRequest]
  cases hs : cut slash line with
  | none =>
    have hn := not_mem_line (cut_eq_none.mp hs) (by decide)
    simp [strchr_missing hstring hn, Pointer.move, Buffer.store]
  | some p =>
    obtain ⟨method, target⟩ := p
    obtain ⟨rfl, hu⟩ := cut_eq_some.mp hs
    have hslash : m.strchr start slash = some (.inside (0 + method.length)) := by
      rw [List.append_assoc, List.cons_append] at hstring
      exact strchr_found hstring hu
    simp only [hslash, Option.bind_eq_bind, Option.bind_some, Pointer.move]
    by_cases he : method = []
    · subst he
      simp [Buffer.store]
    · obtain ⟨method, b, rfl⟩ : ∃ init b, method = init ++ [b] :=
        ⟨_, _, (List.dropLast_concat_getLast he).symm⟩
      have h₀ : 0 ∉ method ∧ 0 ∉ target := by simp_all
      have hsplit : m.bytes = method ++ b :: (slash :: target ++ newline :: 0 :: v) := by
        rw [hm]
        simp
      obtain ⟨m₁, hstore, hm₁⟩ := store_inside hsplit
        (i := 0 + ((method ++ [b]).length : Int) + 1 + -2) (by simp; omega) 0
      have hmethod : m₁.string start = some method := string_inside (u := []) hm₁ rfl h₀.1
      have hm₂ : m₁.bytes = (method ++ [0, slash]) ++ target ++ newline :: 0 :: v := by
        rw [hm₁]
        simp
      have hversion := checkVersion_refines hm₂ (i := 0 + ((method ++ [b]).length : Int) + 1)
        (by simp; omega) h₀.2
      simp only [hstore, Option.bind_some, hmethod]
      by_cases hg : method = ascii "GET"
      · simpa [hg] using hversion
      · simp [hg]

theorem parseRequest_refines {s : Bytes} (hm : m.bytes = s ++ 0 :: v) (hs : 0 ∉ s) :
    (parseRequest m).map Prod.snd = stringRequest s := by
  have hstring : m.string start = some s := string_inside (u := []) hm rfl hs
  rw [parseRequest, stringRequest]
  cases hn : cut newline s with
  | none =>
    simp [strchr_missing hstring (cut_eq_none.mp hn)]
  | some p =>
    obtain ⟨line, rest⟩ := p
    obtain ⟨rfl, hl⟩ := cut_eq_some.mp hn
    obtain ⟨d, w, hw⟩ : ∃ d w, rest ++ 0 :: v = d :: w := by
      cases rest with
      | nil => exact ⟨0, v, rfl⟩
      | cons d rest => exact ⟨d, rest ++ 0 :: v, rfl⟩
    have hsplit : m.bytes = (line ++ [newline]) ++ d :: w := by
      rw [hm, ← hw]
      simp
    obtain ⟨m₁, hstore, hm₁⟩ := store_inside hsplit (i := 0 + (line.length : Int) + 1)
      (by simp) 0
    have hbytes : m₁.bytes = line ++ newline :: 0 :: w := by
      rw [hm₁]
      simp
    have hmethod := checkMethod_refines hbytes (by simp_all)
    have hfound : m.strchr start newline = some (.inside (0 + line.length)) :=
      strchr_found hstring hl
    simpa only [hfound, Option.bind_eq_bind, Option.bind_some, hstore] using hmethod

/-- The array once `read` has delivered some bytes, up to the terminating zero. -/
def delivered (old : RequestLine) (b : Bytes) : Bytes :=
  b ++ (old.bytes.take maxRequestLineLen).drop b.length

theorem readInto_eq {old : RequestLine} {b : Bytes} (hb : b.length ≤ maxRequestLineLen) :
    ∃ m, readInto old b = some m ∧ m.bytes = delivered old b ++ [0] := by
  have hl : (old.bytes.take maxRequestLineLen).length = maxRequestLineLen := by
    rw [List.length_take, old.size]
    decide
  obtain ⟨d, hd⟩ : ∃ d, old.bytes.drop maxRequestLineLen = [d] :=
    List.length_eq_one_iff.mp (by rw [List.length_drop, old.size]; decide)
  have hlen : (delivered old b).length = maxRequestLineLen := by
    rw [delivered, List.length_append, List.length_drop, hl]
    omega
  have hfill : (old.fill b).bytes = delivered old b ++ d :: [] := by
    have hold : old.bytes.drop b.length =
        (old.bytes.take maxRequestLineLen).drop b.length ++ [d] := by
      rw [← hd, ← List.drop_append_of_le_length (by omega), List.take_append_drop]
    simp only [Buffer.fill, hold]
    rw [← List.append_assoc]
    apply List.take_of_length_le
    rw [List.length_append, ← delivered, hlen]
    exact Nat.le_refl _
  exact store_inside hfill (by rw [hlen]) 0

theorem parse_readInto {old : RequestLine} {b : Bytes} (hb : b.length ≤ maxRequestLineLen)
    (hm : readInto old b = some m) :
    (parseRequest m).map Prod.snd = stringRequest ((delivered old b).takeWhile (· ≠ 0)) := by
  obtain ⟨m', hr, hm'⟩ := readInto_eq hb
  obtain ⟨v, hv, hs⟩ := exists_string (delivered old b)
  rw [hm] at hr
  cases hr
  exact parseRequest_refines (hm'.trans hv) hs

end Ti3.Http.RequestLine
