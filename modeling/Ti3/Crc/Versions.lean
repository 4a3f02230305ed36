import Ti3.Crc.Machine

namespace Ti3.Crc.Versions

open Library.CString Library.Interaction Library.Determinism Library.Sessions
open Tool FileSystem Checksum RoundTrip Machine

variable {s s' t : Store} {c : Command} {o : Outcome Exit Unit} {name F : Name} {d e : Bytes}

section undo

variable {names : List Name} {os : List (Outcome Exit Unit)} {w : World}

/-- The files are there one after the other, and none would be replaced. -/
def Free : Store → List Name → Prop
  | _, [] => True
  | s, name :: names => s (name ++ crcSuffix) = none ∧
      ∃ t, apply s (.calculate name) = some t ∧ Free t names

/-- Add all checksums, and take them off again in the opposite order. -/
def thereAndBack : List Name → List Command
  | [] => []
  | name :: names =>
    .calculate name :: (thereAndBack names ++ [.validate (name ++ crcSuffix)])

theorem thereAndBack_length (names : List Name) :
    (thereAndBack names).length = 2 * names.length := by
  induction names with
  | nil => rfl
  | cons name names ih =>
    rw [thereAndBack, List.length_cons, List.length_append, ih, List.length_cons, List.length_nil,
      List.length_cons]
    omega

theorem calculate_undone (h : apply s (.calculate name) = some t)
    (hfree : s (name ++ crcSuffix) = none) :
    apply t (.validate (name ++ crcSuffix)) = some s := by
  have hn := append_suffix_ne name
  obtain ⟨d, hd, rfl⟩ := Option.map_eq_some_iff.mp h
  simp only [apply, original_append, Function.update_self, Function.update_of_ne hn.symm,
    valid_checksummed, payload_checksummed, and_self, if_true, Option.some.injEq]
  rw [Function.update_comm hn, Function.update_idem, Function.update_idem, ← hd,
    Function.update_eq_self, ← hfree, Function.update_eq_self]

theorem ends_applied (h : apply s c = some t) : Ends s c o s' ↔ o = .returned () ∧ s' = t := by
  rw [Ends, h]

/-- The induction is on the files that are left. -/
theorem behaves_back (hfree : Free s names) (h : Behaves Ends s (thereAndBack names) os t) :
    (∀ o ∈ os, o = .returned ()) ∧ t = s := by
  induction names generalizing s t os with
  | nil =>
    cases h
    exact ⟨fun o ho => absurd ho List.not_mem_nil, rfl⟩
  | cons name names ih =>
    obtain ⟨hnone, t₁, ht₁, hfree⟩ := hfree
    cases h with
    | command hends h =>
      obtain ⟨rfl, rfl⟩ := (ends_applied ht₁).mp hends
      obtain ⟨os₁, os₂, t₂, rfl, hmiddle, hlast⟩ := behaves_append h
      obtain ⟨hreturned, rfl⟩ := ih hfree hmiddle
      cases hlast with
      | command hends hstop =>
        cases hstop
        obtain ⟨rfl, rfl⟩ := (ends_applied (calculate_undone ht₁ hnone)).mp hends
        refine ⟨fun o ho => ?_, rfl⟩
        obtain rfl | ho := List.mem_cons.mp ho
        · rfl
        · obtain ho | ho := List.mem_append.mp ho
          · exact hreturned o ho
          · exact List.mem_singleton.mp ho

/-- The way back restores all files. -/
theorem session_undone (prog : Bytes) (hfree : Free w.files names)
    (h : Room (4 * names.length) w.files) :
    (∃ os w', Session faultless (tool prog) exit w (thereAndBack names) os w') ∧
    ∀ os w', Session faultless (tool prog) exit w (thereAndBack names) os w' →
      (∀ o ∈ os, o = .returned ()) ∧ w'.files = w.files := by
  have hroom : Room (2 * (thereAndBack names).length) w.files := by
    rw [thereAndBack_length, ← Nat.mul_assoc]
    exact h
  refine ⟨session_exists (tool_simulated prog) hroom, fun os w' hr => ?_⟩
  exact behaves_back hfree (session_behaves (tool_simulated prog) hroom hr)

theorem session_undone_hello :
    (∃ os w', Session faultless (tool (ascii "crc")) exit (single (ascii "a") (ascii "hello"))
      (thereAndBack [ascii "a", ascii "a.crc"]) os w') ∧
    ∀ os w', Session faultless (tool (ascii "crc")) exit (single (ascii "a") (ascii "hello"))
      (thereAndBack [ascii "a", ascii "a.crc"]) os w' →
        (∀ o ∈ os, o = .returned ()) ∧
          w'.files = (single (ascii "a") (ascii "hello")).files :=
  session_undone (ascii "crc")
    ⟨by decide, _, rfl, by decide +kernel, _, rfl, trivial⟩ (room_single (by decide))

end undo

section versions

/-- The file with its checksum added. -/
def sealed (f : Name × Bytes) : Name × Bytes := (f.1 ++ crcSuffix, checksummed f.2)

/-- The same file with some checksums more or less. -/
def Version (f g : Name × Bytes) : Prop := ∃ k, g = sealed^[k] f ∨ f = sealed^[k] g

theorem sealed_injective : Function.Injective sealed := by
  intro f g h
  obtain ⟨hname, hcontents⟩ := Prod.mk.inj h
  have hd : f.2 = g.2 := by
    rw [← payload_checksummed f.2, hcontents, payload_checksummed]
  exact Prod.ext (List.append_cancel_right hname) hd

theorem version_refl (f : Name × Bytes) : Version f f := ⟨0, .inl rfl⟩

theorem version_sealed (f : Name × Bytes) : Version f (sealed f) := ⟨1, .inl rfl⟩

theorem version_symm {f g : Name × Bytes} (h : Version f g) : Version g f := by
  obtain ⟨k, hk⟩ := h
  exact ⟨k, hk.symm⟩

/-- The versions of a file meet when enough checksums are added. -/
theorem version_iff {f g : Name × Bytes} : Version f g ↔ ∃ m n, sealed^[m] f = sealed^[n] g := by
  constructor
  · rintro ⟨k, rfl | rfl⟩
    · exact ⟨k, 0, rfl⟩
    · exact ⟨0, k, rfl⟩
  · rintro ⟨m, n, h⟩
    obtain ⟨k, rfl⟩ | ⟨k, rfl⟩ := (Nat.le_total m n).imp Nat.exists_eq_add_of_le
      Nat.exists_eq_add_of_le
    · rw [Function.iterate_add_apply] at h
      exact ⟨k, .inr (sealed_injective.iterate m h)⟩
    · rw [Function.iterate_add_apply] at h
      exact ⟨k, .inl (sealed_injective.iterate n h).symm⟩

theorem version_trans {f g i : Name × Bytes} (h : Version f g) (h' : Version g i) :
    Version f i := by
  obtain ⟨m, n, h⟩ := version_iff.mp h
  obtain ⟨p, q, h'⟩ := version_iff.mp h'
  apply version_iff.mpr
  refine ⟨p + m, n + q, ?_⟩
  rw [Function.iterate_add_apply, h, ← Function.iterate_add_apply, Nat.add_comm,
    Function.iterate_add_apply, h', ← Function.iterate_add_apply]

/-- A file is replaced by the one that gets its checksum. -/
def Replaces (s : Store) : Command → Prop
  | .calculate name => s name ≠ none ∧ s (name ++ crcSuffix) ≠ none
  | .validate _ => False

def after (s : Store) (c : Command) : Store := (apply s c).getD (leave s c)

def Careful : Store → List Command → Prop
  | _, [] => True
  | s, c :: cs => ¬ Replaces s c ∧ Careful (after s c) cs

theorem ends_after (h : Ends s c o t) : t = after s c := by
  rw [Ends] at h
  rw [after]
  cases ha : apply s c with
  | some t' | none =>
    rw [ha] at h
    exact h.2

/-- Every file has a place of its own later, with a version of it. -/
def Placed (s t : Store) : Prop :=
  ∃ place : Name → Name, Set.InjOn place {n | s n ≠ none} ∧
    ∀ n d, s n = some d → ∃ e, t (place n) = some e ∧ Version (n, d) (place n, e)

theorem placed_refl (s : Store) : Placed s s :=
  ⟨id, Set.injOn_id _, fun n d hn => ⟨d, hn, version_refl (n, d)⟩⟩

theorem placed_trans (h : Placed s s') (h' : Placed s' t) : Placed s t := by
  obtain ⟨place, hinj, hplace⟩ := h
  obtain ⟨place', hinj', hplace'⟩ := h'
  refine ⟨place' ∘ place, hinj'.comp hinj ?_, fun n d hn => ?_⟩
  · intro n hn
    obtain ⟨d, hd⟩ := Option.ne_none_iff_exists'.mp hn
    obtain ⟨e, he, -⟩ := hplace n d hd
    exact Option.ne_none_iff_exists'.mpr ⟨e, he⟩
  · obtain ⟨e, he, hv⟩ := hplace n d hn
    obtain ⟨e', he', hv'⟩ := hplace' _ e he
    exact ⟨e', he', version_trans hv hv'⟩

/-- A file is moved to a free name. -/
theorem placed_move {a b : Name} (ha : s a = some d) (hb : s b = none)
    (hv : Version (a, d) (b, e)) (htb : t b = some e)
    (hother : ∀ n, n ≠ a → n ≠ b → t n = s n) : Placed s t := by
  refine ⟨Function.update id a b, ?_, fun n d' hn => ?_⟩
  · intro n hn m hm hnm
    have hfree (x : Name) (hx : s x ≠ none) : x ≠ b := fun h => hx (h ▸ hb)
    by_cases hna : n = a
    · by_cases hma : m = a
      · rw [hna, hma]
      · rw [hna, Function.update_self, Function.update_of_ne hma] at hnm
        exact absurd hnm.symm (hfree m hm)
    · by_cases hma : m = a
      · rw [hma, Function.update_self, Function.update_of_ne hna] at hnm
        exact absurd hnm (hfree n hn)
      · rwa [Function.update_of_ne hna, Function.update_of_ne hma] at hnm
  · by_cases hna : n = a
    · obtain rfl := hna
      obtain rfl := Option.some.inj (ha.symm.trans hn)
      rw [Function.update_self]
      exact ⟨e, htb, hv⟩
    · have hnb : n ≠ b := by
        rintro rfl
        rw [hb] at hn
        cases hn
      rw [Function.update_of_ne hna]
      exact ⟨d', (hother n hna hnb).trans hn, version_refl (n, d')⟩

theorem ends_placed (h : Ends s c o t) (hr : ¬ Replaces s c) : Placed s t := by
  obtain ⟨name, d, rfl, hd, rfl⟩ | ⟨F, d, rfl, hd, hF, rfl⟩ | ⟨F, e, -, -, hF, rfl⟩ | rfl :=
    ends_cases h
  · have hfree : s (name ++ crcSuffix) = none := by
      by_contra hne
      apply hr
      exact ⟨Option.ne_none_iff_exists'.mpr ⟨d, hd⟩, hne⟩
    apply placed_move hd hfree (version_sealed (name, d)) (Function.update_self _ _ _)
    intro n hn hnc
    rw [Function.update_of_ne hnc, Function.update_of_ne hn]
  · apply placed_move hd hF (version_symm (version_sealed (F, d)))
    · rw [Function.update_of_ne (append_suffix_ne F).symm, Function.update_self]
    · intro n hn hnF
      rw [Function.update_of_ne hn, Function.update_of_ne hnF]
  · refine ⟨id, Set.injOn_id _, fun n d hn => ⟨d, ?_, version_refl (n, d)⟩⟩
    have hnF : n ≠ F := by
      rintro rfl
      rw [hF] at hn
      cases hn
    exact (Function.update_of_ne hnF _ _).trans hn
  · exact placed_refl t

/-- A version of the contents was there, or the contents are those of an empty file. -/
def Origin (s : Store) (f : Name × Bytes) : Prop :=
  (∃ F, Version (F, []) f) ∨ ∃ n d, s n = some d ∧ Version (n, d) f

theorem origin_self (h : s name = some d) : Origin s (name, d) :=
  .inr ⟨name, d, h, version_refl (name, d)⟩

theorem ends_origin (h : Ends s c o t) (hd : t name = some d) : Origin s (name, d) := by
  obtain ⟨F, e, -, he, rfl⟩ | ⟨F, e, -, he, -, rfl⟩ | ⟨F, e, -, -, -, rfl⟩ | rfl := ends_cases h
  · obtain ⟨rfl, he'⟩ | hd := update_some hd
    · obtain rfl := Option.some.inj he'
      exact .inr ⟨F, e, he, version_sealed (F, e)⟩
    · obtain ⟨-, hnone⟩ | hd := update_some hd
      · cases hnone
      · exact origin_self hd
  · obtain ⟨-, hnone⟩ | hd := update_some hd
    · cases hnone
    · obtain ⟨rfl, he'⟩ | hd := update_some hd
      · obtain rfl := Option.some.inj he'
        exact .inr ⟨_, _, he, version_symm (version_sealed (name, e))⟩
      · exact origin_self hd
  · obtain ⟨rfl, he'⟩ | hd := update_some hd
    · obtain rfl := Option.some.inj he'
      exact .inl ⟨name, version_refl _⟩
    · exact origin_self hd
  · exact origin_self hd

variable {cs : List Command} {os : List (Outcome Exit Unit)} {w w' : World}

theorem behaves_placed (h : Behaves Ends s cs os t) (hcareful : Careful s cs) : Placed s t := by
  induction h with
  | stop => exact placed_refl _
  | command hends _ ih =>
    obtain ⟨hr, hcareful⟩ := hcareful
    rw [← ends_after hends] at hcareful
    exact placed_trans (ends_placed hends hr) (ih hcareful)

theorem behaves_origin (h : Behaves Ends s cs os t) (hd : t name = some d) :
    Origin s (name, d) := by
  induction h with
  | stop => exact origin_self hd
  | command hends _ ih =>
    obtain hempty | ⟨n, d', hn, hv⟩ := ih hd
    · exact .inl hempty
    · obtain ⟨F, hF⟩ | ⟨m, e, hm, hv'⟩ := ends_origin hends hn
      · exact .inl ⟨F, version_trans hF hv⟩
      · exact .inr ⟨m, e, hm, version_trans hv' hv⟩

/-- No session makes up contents. It keeps all of them if it replaces no file. -/
theorem session_versions (prog : Bytes) (h : Room (2 * cs.length) w.files)
    (hr : Session faultless (tool prog) exit w cs os w') :
    (∀ name d, w'.files name = some d → Origin w.files (name, d)) ∧
    (Careful w.files cs → Placed w.files w'.files) := by
  have hb := session_behaves (tool_simulated prog) h hr
  exact ⟨fun _ _ hd => behaves_origin hb hd, behaves_placed hb⟩

theorem session_versions_hello : ∃ os w', Session faultless (tool (ascii "crc")) exit
    (single (ascii "a") (ascii "hello")) [.calculate (ascii "a"), .validate (ascii "a.crc")] os w' ∧
    (∀ name d, w'.files name = some d →
      Origin (single (ascii "a") (ascii "hello")).files (name, d)) ∧
    (Careful (single (ascii "a") (ascii "hello")).files
      [.calculate (ascii "a"), .validate (ascii "a.crc")] →
        Placed (single (ascii "a") (ascii "hello")).files w'.files) := by
  have hroom : Room (2 * [Command.calculate (ascii "a"), .validate (ascii "a.crc")].length)
      (single (ascii "a") (ascii "hello")).files := room_single (by decide)
  obtain ⟨os, w', hr⟩ := session_exists (tool_simulated (ascii "crc")) hroom
  exact ⟨os, w', hr, session_versions (ascii "crc") hroom hr⟩

end versions

end Ti3.Crc.Versions
