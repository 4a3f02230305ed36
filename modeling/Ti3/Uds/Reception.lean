import Ti3.Uds.Parties

namespace Ti3.Uds.Reception

open Library.CString Library.CMemory Library.Interaction Library.Rules Datagrams Parties

/-- The datagrams that wait for the server, and what it has printed. -/
structure Inbox where
  waiting : List Bytes
  printed : List Bytes

/-- The socket can be set up, and `recv` blocks while no datagram waits. -/
def inbox (w : Inbox) : (c : Call) → Answer c → Inbox → Prop
  | .socket, a, w' | .bind _ _, a, w' => a ≠ -1 ∧ w' = w
  | .recv _ size, a, w' => ∃ d ds, w.waiting = d :: ds ∧ a = some (d.take size) ∧
      w' = { w with waiting := ds }
  | .fputs text, _, w' => w' = { w with printed := w.printed ++ [text] }
  | .fgets _, _, _ | .ferror, _, _ | .sendto _ _ _, _, _ => False

/-- All datagrams are received and printed, each as the string it starts with, and
the server does not end. -/
structure Serves (buffer : Buffer bufsize) (path : Bytes) (ds : List Bytes) : Prop where
  prints : ∃ w, Runs inbox (server buffer [ascii "uds-server", path]) ⟨ds, []⟩ .cut w ∧
    w.waiting = [] ∧ w.printed = ds.map text
  goesOn : Guarantees inbox (server buffer [ascii "uds-server", path]) ⟨ds, []⟩
    (fun o _ => o = .cut)

/-- What the server prints, if it comes to the end of the datagrams. -/
def served (buffer : Buffer bufsize) : List Bytes → Option (List Bytes)
  | [] => some []
  | d :: ds =>
    if d = [] then none
    else ((buffer.fill d).string (.inside 0)).bind (fun t =>
      (served (buffer.fill d) ds).map (fun ts => t :: ts))

/-- The byte that stands in the buffer at an offset: it is from the last datagram
that reached so far, or it has been there from the start. -/
def standing (buffer : Buffer bufsize) (received : List Bytes) (k : Nat) : Option UInt8 :=
  match received.reverse.find? (fun d => k < d.length) with
  | some d => d[k]?
  | none => buffer.bytes[k]?

variable {buffer : Buffer bufsize} {path d : Bytes} {ds ts : List Bytes} {w : Inbox} {sockFd : Int}

/-- A datagram comes out as its own string if the string ends in it or right
behind it. -/
theorem string_fill_iff (hd : d.length ≤ bufsize) : (buffer.fill d).string (.inside 0) =
    some (text d) ↔ 0 ∈ d ∨ buffer.bytes[d.length]? = some 0 := by
  by_cases h₀ : 0 ∈ d
  · rw [string_fill_zero hd h₀, text]
    simp [h₀]
  · have hbehind : buffer.bytes[d.length]? = (buffer.bytes.drop d.length)[0]? := by
      rw [List.getElem?_drop, Nat.add_zero]
    rw [string_fill_open hd h₀, text, takeWhile_whole h₀, or_iff_right h₀, hbehind,
      Buffer.string, Int.toNat_natCast]
    cases buffer.bytes.drop d.length with
    | nil => simp
    | cons b v =>
      by_cases hb : b = 0
      · simp [hb]
      · simp [hb]

/-- A round for a datagram that is not empty. -/
theorem receiveStep_runs (sockFd : Int) (buffer : Buffer bufsize) (hw : w.waiting = d :: ds)
    (hd : d.length ≤ bufsize) (hne : d ≠ []) : Runs inbox (receiveStep sockFd buffer) w
      (((buffer.fill d).string (.inside 0)).elim (.halted .fault)
        (fun _ => .returned (.inl (buffer.fill d))))
      ⟨ds, w.printed ++ ((buffer.fill d).string (.inside 0)).toList⟩ := by
  have hrecv : inbox w (.recv sockFd bufsize) (some d) { w with waiting := ds } :=
    ⟨d, ds, hw, by rw [List.take_of_length_le hd], rfl⟩
  have hpos : 0 < d.length := List.length_pos_iff.mpr hne
  simp only [receiveStep, recv, library, ask_bind]
  apply runs_call hrecv
  dsimp only
  rw [if_pos hpos]
  cases (buffer.fill d).string (.inside 0) with
  | none =>
    rw [Option.toList_none, List.append_nil]
    exact runs_halt
  | some t => exact runs_call (a := (0 : Int)) rfl runs_done

theorem receiveStep_guarantees {P : Outcome Exit (Buffer bufsize ⊕ Int) → Inbox → Prop}
    (hw : ∀ d ∈ w.waiting, d.length ≤ bufsize) (hcut : P .cut w)
    (hP : ∀ d ds, w.waiting = d :: ds → P .cut { w with waiting := ds } ∧
      if d = [] then P (.returned (.inr 0)) { w with waiting := ds }
      else match (buffer.fill d).string (.inside 0) with
        | none => P (.halted .fault) { w with waiting := ds }
        | some t => P .cut ⟨ds, w.printed ++ [t]⟩ ∧
            P (.returned (.inl (buffer.fill d))) ⟨ds, w.printed ++ [t]⟩) :
    Guarantees inbox (receiveStep sockFd buffer) w P := by
  simp only [receiveStep, recv, library, ask_bind]
  refine guarantees_call.mpr ⟨hcut, fun a w₁ ha => ?_⟩
  obtain ⟨d, ds, hd, rfl, rfl⟩ := ha
  rw [List.take_of_length_le (hw d (hd ▸ List.mem_cons_self ..))]
  obtain ⟨hcut₁, hP⟩ := hP d ds hd
  dsimp only
  by_cases hne : d = []
  · rw [if_pos hne] at hP
    rw [hne, if_neg (by decide)]
    exact guarantees_done.mpr ⟨hcut₁, hP⟩
  · rw [if_neg hne] at hP
    rw [if_pos (List.length_pos_iff.mpr hne)]
    cases hs : (buffer.fill d).string (.inside 0) with
    | none =>
      rw [hs] at hP
      exact guarantees_halt.mpr ⟨hcut₁, hP⟩
    | some t =>
      rw [hs] at hP
      refine guarantees_call.mpr ⟨hcut₁, fun _ w₂ hw₂ => ?_⟩
      cases hw₂
      exact guarantees_done.mpr hP

theorem served_length (h : served buffer ds = some ts) : ts.length = ds.length := by
  induction ds generalizing buffer ts with
  | nil =>
    cases h
    rfl
  | cons d ds ih =>
    rw [served] at h
    split at h
    · cases h
    · obtain ⟨t, -, h⟩ := Option.bind_eq_some_iff.mp h
      obtain ⟨ts, hts, rfl⟩ := Option.map_eq_some_iff.mp h
      rw [List.length_cons, List.length_cons, ih hts]

/-- The loop of the server, and its end. -/
def receiving (sockFd : Int) (buffer : Buffer bufsize) : Process Unit :=
  .loop (receiveStep sockFd) buffer
    (fun recvRet => errIf (recvRet ≤ 0) recvError (ascii "Error in reception"))

theorem receiving_runs (hds : ∀ d ∈ ds, d.length ≤ bufsize) (h : served buffer ds = some ts)
    (printed : List Bytes) :
    Runs inbox (receiving sockFd buffer) ⟨ds, printed⟩ .cut ⟨[], printed ++ ts⟩ := by
  induction ds generalizing buffer ts printed with
  | nil =>
    cases h
    rw [List.append_nil]
    exact runs_cut _ _
  | cons d ds ih =>
    obtain ⟨hd, hds⟩ := List.forall_mem_cons.mp hds
    rw [served] at h
    split at h
    · cases h
    · next hne =>
      obtain ⟨t, ht, h⟩ := Option.bind_eq_some_iff.mp h
      obtain ⟨ts, hts, rfl⟩ := Option.map_eq_some_iff.mp h
      have hstep := receiveStep_runs (w := ⟨d :: ds, printed⟩) sockFd buffer rfl hd hne
      rw [ht] at hstep
      have hrest := ih hds hts (printed ++ [t])
      rw [List.append_assoc, List.singleton_append] at hrest
      exact loop_next hstep hrest

theorem receiving_guarantees (hds : ∀ d ∈ ds, d.length ≤ bufsize)
    (h : served buffer ds = some ts) :
    Guarantees inbox (receiving sockFd buffer) ⟨ds, []⟩
      (fun o w => o = .cut ∧ w.printed <+: ts) := by
  refine guarantees_loop (fun b w => (∀ d ∈ w.waiting, d.length ≤ bufsize) ∧
    ∃ rest, served b w.waiting = some rest ∧ w.printed ++ rest = ts) ⟨hds, ts, h, rfl⟩
    (fun b w ⟨hw, rest, hs, hrest⟩ => ?_)
  have hcut : w.printed <+: ts := ⟨rest, hrest⟩
  refine receiveStep_guarantees hw ⟨rfl, hcut⟩ (fun d ds hd => ⟨⟨rfl, hcut⟩, ?_⟩)
  rw [hd, served] at hs
  split at hs
  · cases hs
  · next hne =>
    obtain ⟨t, ht, hs⟩ := Option.bind_eq_some_iff.mp hs
    obtain ⟨rest, hrest', rfl⟩ := Option.map_eq_some_iff.mp hs
    have hprinted : w.printed ++ [t] ++ rest = ts := by
      rw [List.append_assoc, List.singleton_append, hrest]
    rw [if_neg hne, ht]
    refine ⟨⟨rfl, ⟨rest, hprinted⟩⟩, fun d' hd' => hw d' ?_, rest, hrest', hprinted⟩
    rw [hd]
    exact List.mem_cons_of_mem d hd'

/-- An empty datagram ends the server, and so does one behind which no zero is
found. -/
theorem receiving_ends (sockFd : Int) (hds : ∀ d ∈ ds, d.length ≤ bufsize)
    (h : served buffer ds = none) (printed : List Bytes) :
    ∃ e w, Runs inbox (receiving sockFd buffer) ⟨ds, printed⟩ (.halted e) w := by
  induction ds generalizing buffer printed with
  | nil => cases h
  | cons d ds ih =>
    obtain ⟨hd, hds⟩ := List.forall_mem_cons.mp hds
    by_cases hne : d = []
    · subst hne
      have hrecv : inbox ⟨[] :: ds, printed⟩ (.recv sockFd bufsize) (some []) ⟨ds, printed⟩ :=
        ⟨[], ds, rfl, rfl, rfl⟩
      have hstep : Runs inbox (receiveStep sockFd buffer) ⟨[] :: ds, printed⟩
          (.returned (.inr 0)) ⟨ds, printed⟩ := runs_call hrecv runs_done
      exact ⟨_, _, loop_stop hstep runs_halt⟩
    · have hstep := receiveStep_runs (w := ⟨d :: ds, printed⟩) sockFd buffer rfl hd hne
      rw [served, if_neg hne] at h
      cases ht : (buffer.fill d).string (.inside 0) with
      | none =>
        rw [ht] at hstep
        exact ⟨_, _, loop_halted hstep⟩
      | some t =>
        rw [ht] at hstep
        rw [ht, Option.bind_some, Option.map_eq_none_iff] at h
        obtain ⟨e, w, hr⟩ := ih hds h (printed ++ [t])
        exact ⟨e, w, loop_next hstep hr⟩

/-- Every datagram has something in it, and the string it starts with ends in it
or at a zero right behind it. -/
def Terminated (buffer : Buffer bufsize) (ds : List Bytes) : Prop :=
  ∀ earlier d later, ds = earlier ++ d :: later →
    d ≠ [] ∧ (0 ∈ d ∨ standing buffer earlier d.length = some 0)

theorem standing_fill (hd : d.length ≤ bufsize) (received : List Bytes) (k : Nat) :
    standing (buffer.fill d) received k = standing buffer (d :: received) k := by
  have hfill : (buffer.fill d).bytes = d ++ buffer.bytes.drop d.length := fill_fits hd
  rw [standing, standing, List.reverse_cons, List.find?_append]
  cases received.reverse.find? (fun d => k < d.length) with
  | some e => rfl
  | none =>
    rw [Option.none_or, hfill]
    by_cases hk : k < d.length
    · simp [hk, List.getElem?_append_left hk]
    · have hbehind : d.length + (k - d.length) = k := by omega
      simp [hk, List.getElem?_append_right (Nat.le_of_not_lt hk), hbehind]

theorem terminated_cons (hd : d.length ≤ bufsize) : Terminated buffer (d :: ds) ↔
    (d ≠ [] ∧ (0 ∈ d ∨ buffer.bytes[d.length]? = some 0)) ∧ Terminated (buffer.fill d) ds := by
  constructor
  · intro h
    refine ⟨h [] d ds rfl, fun earlier e later he => ?_⟩
    rw [standing_fill hd]
    exact h (d :: earlier) e later (by rw [he]; rfl)
  · rintro ⟨h, hrest⟩ earlier e later he
    cases earlier with
    | nil =>
      cases he
      exact h
    | cons d' earlier =>
      cases he
      rw [← standing_fill hd]
      exact hrest earlier e later rfl

theorem served_iff (hds : ∀ d ∈ ds, d.length ≤ bufsize) :
    served buffer ds = some (ds.map text) ↔ Terminated buffer ds := by
  induction ds generalizing buffer with
  | nil => simp [served, Terminated]
  | cons d ds ih =>
    obtain ⟨hd, hds⟩ := List.forall_mem_cons.mp hds
    rw [terminated_cons hd, ← ih hds, ← string_fill_iff hd, served, List.map_cons]
    by_cases hne : d = []
    · simp [hne]
    · rw [if_neg hne]
      constructor
      · intro h
        obtain ⟨t, ht, h⟩ := Option.bind_eq_some_iff.mp h
        obtain ⟨ts, hts, he⟩ := Option.map_eq_some_iff.mp h
        cases he
        exact ⟨⟨hne, ht⟩, hts⟩
      · rintro ⟨⟨-, ht⟩, hts⟩
        rw [ht, hts]
        rfl

theorem server_enters {o : Outcome Exit Unit} {w' : Inbox}
    (h : Runs inbox (receiving 3 buffer) w o w') :
    Runs inbox (server buffer [ascii "uds-server", path]) w o w' := by
  have hsocket : inbox w .socket (3 : Int) w := ⟨by decide, rfl⟩
  have hbound : (0 : Int) ≠ -1 := by decide
  have hbind : inbox w (.bind 3 (sunPath path)) (0 : Int) w := ⟨hbound, rfl⟩
  exact runs_call hsocket (runs_call hbind h)

theorem server_guarantees {P : Outcome Exit Unit → Inbox → Prop} (hcut : P .cut w)
    (h : ∀ sockFd, Guarantees inbox (receiving sockFd buffer) w P) :
    Guarantees inbox (server buffer [ascii "uds-server", path]) w P := by
  simp only [server, Datagrams.socket, Datagrams.bind, library, ask_bind]
  refine guarantees_call.mpr ⟨hcut, fun sockFd w₁ hsock => ?_⟩
  obtain ⟨hs, rfl⟩ : _ ∧ w₁ = _ := hsock
  rw [errIf, if_neg hs]
  refine guarantees_call.mpr ⟨hcut, fun a w₂ hbind => ?_⟩
  obtain ⟨ha, rfl⟩ : _ ∧ w₂ = _ := hbind
  rw [errIf, if_neg ha]
  exact h sockFd

theorem serves_iff_served (hds : ∀ d ∈ ds, d.length ≤ bufsize) :
    Serves buffer path ds ↔ served buffer ds = some (ds.map text) := by
  constructor
  · intro h
    obtain ⟨w, hr, -, hw⟩ := h.prints
    cases hs : served buffer ds with
    | none =>
      obtain ⟨e, w', hend⟩ := receiving_ends 3 hds hs []
      exact absurd (h.goesOn _ _ (server_enters hend)) nofun
    | some ts =>
      have hg : Guarantees inbox (server buffer [ascii "uds-server", path]) ⟨ds, []⟩
          (fun _ w => w.printed <+: ts) :=
        server_guarantees List.nil_prefix
          (fun sockFd => guarantees_mono (receiving_guarantees hds hs) (fun _ _ h => h.2))
      have hpre : ds.map text <+: ts := hw ▸ hg _ _ hr
      rw [hpre.eq_of_length (by rw [List.length_map, served_length hs])]
  · intro hs
    constructor
    · exact ⟨_, server_enters (receiving_runs hds hs []), rfl, rfl⟩
    · exact server_guarantees rfl
        (fun sockFd => guarantees_mono (receiving_guarantees hds hs) (fun _ _ h => h.1))

/-- What an earlier datagram or the start has left behind a datagram decides
whether it comes out as it was sent. -/
theorem serves_iff (buffer : Buffer bufsize) (path : Bytes) (ds : List Bytes)
    (hds : ∀ d ∈ ds, d.length ≤ bufsize) : Serves buffer path ds ↔ Terminated buffer ds :=
  (serves_iff_served hds).trans (served_iff hds)

theorem serves_iff_zeros :
    Serves (Buffer.zeros bufsize) (ascii "s") [ascii "hi", ascii "hello"] ↔
      Terminated (Buffer.zeros bufsize) [ascii "hi", ascii "hello"] :=
  serves_iff _ _ _ (by decide)

/-- An empty datagram ends the server, and what is left of a long one is printed
behind a short one. -/
theorem not_serves : ¬ Serves (Buffer.zeros bufsize) (ascii "s") [[]] ∧
    ¬ Serves (Buffer.zeros bufsize) (ascii "s") [ascii "hello", ascii "hi"] := by
  constructor
  · rw [serves_iff_served (by decide), served_iff (by decide), terminated_cons (by decide)]
    exact fun h => h.1.1 rfl
  · rw [serves_iff_served (by decide), served_iff (by decide), terminated_cons (by decide),
      terminated_cons (by decide)]
    rintro ⟨-, ⟨-, h | h⟩, -⟩
    · exact absurd h (by decide)
    · rw [fill_fits (by decide)] at h
      cases h

end Ti3.Uds.Reception
