import Ti3.Library.Disturbance
import Ti3.Tr.PseudoTr

namespace Ti3.Tr.Signals

open Library.CString Library.CMemory Library.Inet Library.Interaction Library.Rules
open Library.Concurrency Library.Disturbance PseudoTr

inductive Party where
  | parent
  | child
  deriving DecidableEq

/-- The probes that had been sent when the child exited, and whether the handler
for SIGCHLD was installed then. -/
structure Mark where
  probes : Nat
  handled : Bool
  deriving DecidableEq

/-- The state that the processes share. A signal is pending until the handler has
run. -/
structure World where
  forked : Bool
  handled : Bool
  pending : Bool
  gotSIGCHLD : Bool
  probes : Nat
  received : List Packet
  exited : Option Mark

def handleSIGCHLD (w : World) : World := { w with pending := false, gotSIGCHLD := true }

/-- A pending signal is delivered. -/
def deliver (w : World) : World := if w.pending then handleSIGCHLD w else w

/-- The child exits. SIGCHLD is ignored while no handler is installed. -/
def exitChild (w : World) : World :=
  { w with pending := w.pending || w.handled, exited := some ⟨w.probes, w.handled⟩ }

/-- Any call may fail. A pending signal is delivered when the next system call
returns, at the latest. -/
def parentCalls (w : World) : (c : Call) → Answer c → World → Prop
  | .fork, a, w' => (a = -1 ∧ w' = w) ∨ (0 < a ∧ w' = { w with forked := true })
  | .sigaction, a, w' => (a = -1 ∧ w' = w) ∨ (a = 0 ∧ w' = { w with handled := true })
  | .gotSIGCHLD, a, w' => (w' = w ∨ w' = deliver w) ∧ a = w'.gotSIGCHLD
  | .sendto _ _ _, a, w' => (a = -1 ∧ w' = deliver w) ∨
      (a ≠ -1 ∧ w' = deliver { w with probes := w.probes + 1 })
  | .socket _, _, w' | .setsockopt _ _, _, w' | .sleep _, _, w' | .close _, _, w'
  | .exit _ _, _, w' => w' = deliver w
  | .recvfrom _ _, _, _ | .printf _, _, _ => False

/-- Any packets arrive in any order. -/
def childAnswers (w : World) : (c : Call) → Answer c → World → Prop
  | .fork, a, w' => a = 0 ∧ w' = w
  | .recvfrom _ size, a, w' => ((a = none ∨ a = some []) ∧ w' = w) ∨
      ∃ p : Packet, a = some (p.bytes.take size) ∧ w' = { w with received := w.received ++ [p] }
  | .socket _, _, w' | .printf _, _, w' | .close _, _, w' => w' = w
  | .exit _ _, _, w' => w' = exitChild w
  | .sigaction, _, _ | .gotSIGCHLD, _, _ | .setsockopt _ _, _, _ | .sendto _ _ _, _, _
  | .sleep _, _, _ => False

/-- The child makes calls from the fork on, until it has exited. -/
def childCalls (w : World) (c : Call) (a : Answer c) (w' : World) : Prop :=
  w.forked = true ∧ w.exited = none ∧ childAnswers w c a w'

def environment : Party → Environment Call Answer World
  | .parent => parentCalls
  | .child => childCalls

abbrev System := Configuration Call Answer Exit Unit World Party

/-- Both processes run the same program, the child from the fork on. -/
def start (buffer : Buffer bufsize) (argv : List Bytes) : System where
  programs _ := main buffer argv
  world := ⟨false, false, false, false, 0, [], none⟩

/-- No more than one probe is sent after the exit of the child. -/
def OneMore (w : World) : Prop := ∀ m, w.exited = some m → w.probes ≤ m.probes + 1

/-- The same, if the handler was installed in time. -/
def Late (w : World) : Prop :=
  ∀ m, w.exited = some m → m.handled = true → w.probes ≤ m.probes + 1

/-- What the child may do to the parent. -/
inductive Disturbs (w : World) : World → Prop
  | runs (received : List Packet) : Disturbs w { w with received := received }
  | exits (received : List Packet) : w.exited = none →
      Disturbs w (exitChild { w with received := received })

instance : Std.Refl Disturbs where
  refl w := .runs w.received

instance : IsTrans World Disturbs where
  trans _ _ _ h h' := by
    cases h with
    | runs received =>
      cases h' with
      | runs received' => exact .runs received'
      | exits received' hw => exact .exits received' hw
    | exits received hw =>
      cases h' with
      | runs received' => exact .exits received' hw
      | exits _ hw' => cases hw'

theorem childCalls_disturbs {w w' : World} {c : Call} {a : Answer c}
    (h : childCalls w c a w') : Disturbs w w' := by
  obtain ⟨_, hw, h⟩ := h
  cases c with
  | fork =>
    obtain ⟨_, rfl⟩ := h
    exact refl _
  | recvfrom inSock size =>
    obtain ⟨_, rfl⟩ | ⟨p, _, rfl⟩ := h
    · exact refl _
    · exact .runs _
  | socket | printf | close =>
    obtain rfl : w' = w := h
    exact refl _
  | exit code message =>
    obtain rfl : w' = exitChild w := h
    exact .exits w.received hw
  | sigaction | gotSIGCHLD | setsockopt | sendto | sleep => cases h

/-- If the handler was installed in time, the exit of the child is noticed. -/
def Noticed (w : World) : Prop :=
  ∀ m, w.exited = some m → m.handled = true → w.pending = true ∨ w.gotSIGCHLD = true

/-- No probe has been sent since the exit of the child. -/
structure Ready (w : World) : Prop where
  noticed : Noticed w
  none : ∀ m, w.exited = some m → m.handled = true → w.probes ≤ m.probes

/-- One probe may have been sent since the exit of the child, but then the flag is
set. -/
structure Probed (w : World) : Prop where
  noticed : Noticed w
  late : Late w
  flag : w.gotSIGCHLD = false →
    ∀ m, w.exited = some m → m.handled = true → w.probes ≤ m.probes

variable {w w' : World} {buffer : Buffer bufsize} {argv : List Bytes} {C : System}

theorem noticed_disturbs (hw : Disturbs w w') (h : Noticed w) : Noticed w' := by
  cases hw with
  | runs => exact h
  | exits received hnone =>
    intro m hm hh
    cases hm
    exact .inl (Bool.or_eq_true_iff.mpr (.inr hh))

theorem ready_disturbs (hw : Disturbs w w') (h : Ready w) : Ready w' := by
  refine ⟨noticed_disturbs hw h.noticed, ?_⟩
  cases hw with
  | runs => exact h.none
  | exits received hnone =>
    intro m hm _
    cases hm
    exact Nat.le_refl _

theorem late_disturbs (hw : Disturbs w w') (h : Late w) : Late w' := by
  cases hw with
  | runs => exact h
  | exits received hnone =>
    intro m hm _
    cases hm
    exact Nat.le_succ _

theorem probed_disturbs (hw : Disturbs w w') (h : Probed w) : Probed w' := by
  refine ⟨noticed_disturbs hw h.noticed, late_disturbs hw h.late, ?_⟩
  cases hw with
  | runs => exact h.flag
  | exits received hnone =>
    intro _ m hm _
    cases hm
    exact Nat.le_refl _

theorem Ready.late (h : Ready w) : Late w :=
  fun m hm hh => Nat.le_succ_of_le (h.none m hm hh)

theorem Ready.probed (h : Ready w) : Probed w := ⟨h.noticed, h.late, fun _ => h.none⟩

theorem Probed.ready (h : Probed w) (hflag : w.gotSIGCHLD = false) : Ready w :=
  ⟨h.noticed, h.flag hflag⟩

@[simp] theorem deliver_exited (w : World) : (deliver w).exited = w.exited := by
  rw [deliver]
  split <;> rfl

@[simp] theorem deliver_probes (w : World) : (deliver w).probes = w.probes := by
  rw [deliver]
  split <;> rfl

theorem deliver_flag (w : World) :
    (deliver w).gotSIGCHLD = (w.pending || w.gotSIGCHLD) := by
  cases hp : w.pending with
  | false =>
    rw [deliver, hp, Bool.false_or]
    rfl
  | true =>
    rw [deliver, hp, Bool.true_or]
    rfl

theorem noticed_deliver (h : Noticed w) : Noticed (deliver w) := by
  intro m hm hh
  rw [deliver_exited] at hm
  rw [deliver_flag, Bool.or_eq_true]
  exact .inr (h m hm hh)

theorem late_deliver (h : Late w) : Late (deliver w) := by
  intro m hm hh
  rw [deliver_exited] at hm
  rw [deliver_probes]
  exact h m hm hh

theorem ready_deliver (h : Ready w) : Ready (deliver w) := by
  refine ⟨noticed_deliver h.noticed, fun m hm hh => ?_⟩
  rw [deliver_exited] at hm
  rw [deliver_probes]
  exact h.none m hm hh

theorem probed_deliver (h : Probed w) : Probed (deliver w) := by
  refine ⟨noticed_deliver h.noticed, late_deliver h.late, fun hf m hm hh => ?_⟩
  rw [deliver_flag, Bool.or_eq_false_iff] at hf
  rw [deliver_exited] at hm
  rw [deliver_probes]
  exact h.flag hf.2 m hm hh

/-- A probe is sent. If the child has exited, the flag is set when `sendto` returns. -/
theorem probed_sendto (h : Ready w) : Probed (deliver { w with probes := w.probes + 1 }) := by
  refine ⟨noticed_deliver h.noticed, late_deliver ?_, fun hf m hm hh => ?_⟩
  · exact fun m hm hh => Nat.succ_le_succ (h.none m hm hh)
  · rw [deliver_flag, Bool.or_eq_false_iff] at hf
    rw [deliver_exited] at hm
    obtain hp | hg := h.noticed m hm hh
    · cases hp.symm.trans hf.1
    · cases hg.symm.trans hf.2

/-- However the child disturbs the parent, it keeps `Late`, and hands on a result
as `Q` says. -/
abbrev Guards {α : Type} (p : Process α) (w : World) (Q : α → World → Prop) : Prop :=
  Guarantees (disturbed Disturbs parentCalls) p w (follow (fun _ : Outcome Exit Unit => Late) Q)

section

variable {α : Type} {Q : α → World → Prop} {code : Nat} {message : Bytes}

theorem guards_exit (h : Late w) : Guards (exit code message) w Q := by
  refine guarantees_exit h (fun _ w₂ ⟨w₁, hw, ha⟩ => ?_)
  obtain rfl : w₂ = deliver w₁ := ha
  have h' := late_deliver (late_disturbs hw h)
  exact ⟨h', h'⟩

theorem guards_exitIf {failed : Prop} [Decidable failed] {k : Process α} (h : Late w)
    (hk : ¬ failed → Guards k w Q) : Guards (do exitIf failed code message; k) w Q :=
  guarantees_exitIf (fun _ => guards_exit h) hk

/-- A call during which a signal may come in, and nothing else happens. -/
theorem guards_deliver {c : Call} {k : Answer c → Process α} {I : World → Prop}
    (hc : ∀ w a w', parentCalls w c a w' → w' = deliver w) (hlate : Late w) (h : I w)
    (hI : ∀ w w', Disturbs w w' → I w → I (deliver w'))
    (hk : ∀ a w', I w' → Guards (k a) w' Q) : Guards (.call c k) w Q := by
  refine guarantees_call.mpr ⟨hlate, fun a w₂ ⟨w₁, hw, ha⟩ => ?_⟩
  obtain rfl := hc _ _ _ ha
  exact hk a _ (hI w w₁ hw h)

end

theorem ready_kept (hw : Disturbs w w') (h : Ready w) : Ready (deliver w') :=
  ready_deliver (ready_disturbs hw h)

theorem probed_kept (hw : Disturbs w w') (h : Probed w) : Probed (deliver w') :=
  probed_deliver (probed_disturbs hw h)

/-- One turn of the loop of the parent. -/
theorem probe_guards {outSock : Int} {sockAddr : SockAddr} {ttl : Nat} (h : Probed w) :
    Guards (probeStep outSock sockAddr ttl) w
      (Sum.elim (fun _ => Probed) (fun _ => Late)) := by
  rw [probeStep]
  split
  · simp only [gotSIGCHLD, close, setsockopt, sendto, sleep, library, ask_bind]
    refine guarantees_call.mpr ⟨h.late, fun got w₂ ⟨w₁, hw, hw₂, hgot⟩ => ?_⟩
    have h₂ : Probed w₂ := by
      obtain rfl | rfl := hw₂
      · exact probed_disturbs hw h
      · exact probed_kept hw h
    split
    · refine guards_deliver (fun _ _ _ ha => ha) h₂.late h₂ (fun _ _ => probed_kept)
        (fun _ w₃ h₃ => ?_)
      exact guards_exitIf h₃.late (fun _ => guards_exit h₃.late)
    · next hclear =>
      have hready : Ready w₂ := h₂.ready (hgot ▸ Bool.not_eq_true _ ▸ hclear)
      refine guards_deliver (fun _ _ _ ha => ha) hready.late hready (fun _ _ => ready_kept)
        (fun _ w₃ h₃ => ?_)
      refine guards_exitIf h₃.late (fun _ => ?_)
      refine guarantees_call.mpr ⟨h₃.late, fun sent w₅ ⟨w₄, hw₄, ha⟩ => ?_⟩
      have h₄ := ready_disturbs hw₄ h₃
      have h₅ : Probed w₅ := by
        obtain ⟨_, rfl⟩ | ⟨_, rfl⟩ := ha
        · exact (ready_deliver h₄).probed
        · exact probed_sendto h₄
      refine guards_exitIf h₅.late (fun _ => ?_)
      refine guards_deliver (fun _ _ _ ha => ha) h₅.late h₅ (fun _ _ => probed_kept)
        (fun _ w₆ h₆ => ?_)
      exact guarantees_done.mpr ⟨h₆.late, h₆⟩
  · exact guarantees_done.mpr ⟨h.late, h.late⟩

theorem parent_guards {finalAddress : Bytes} (h : Ready w) :
    Guards (parent finalAddress) w (fun _ => Late) := by
  simp only [parent, sigaction, socket, library, ask_bind]
  refine guarantees_call.mpr ⟨h.late, fun _ w₂ ⟨w₁, hw, ha⟩ => ?_⟩
  have h₁ := ready_disturbs hw h
  have h₂ : Ready w₂ := by
    obtain ⟨_, rfl⟩ | ⟨_, rfl⟩ := ha
    · exact h₁
    · exact ⟨h₁.noticed, h₁.none⟩
  refine guards_exitIf h₂.late (fun _ => ?_)
  refine guards_deliver (fun _ _ _ ha => ha) h₂.late h₂ (fun _ _ => ready_kept)
    (fun _ w₃ h₃ => ?_)
  refine guards_exitIf h₃.late (fun _ => ?_)
  split
  · exact guards_exit h₃.late
  · refine guarantees_loop (fun _ => Probed) h₃.probed (fun ttl w h => ?_)
    refine guarantees_mono (probe_guards h) (fun o w' h => ?_)
    cases o with
    | cut | halted => exact h
    | returned next =>
      cases next with
      | inl ttl => exact h
      | inr _ => exact guarantees_done.mpr ⟨h, h⟩

theorem main_guards : Guards (main buffer argv) (start buffer argv).world (fun _ => Late) := by
  have h : Ready (start buffer argv).world := ⟨nofun, nofun⟩
  unfold main
  split
  · simp only [fork, library, ask_bind]
    refine guarantees_call.mpr ⟨h.late, fun pid w₂ ⟨w₁, hw, ha⟩ => ?_⟩
    have h₁ := ready_disturbs hw h
    obtain ⟨rfl, rfl⟩ | ⟨hpid, rfl⟩ := ha
    · exact guards_exit h₁.late
    · have h₂ : Ready { w₁ with forked := true } := ⟨h₁.noticed, h₁.none⟩
      have hne : pid ≠ (-1 : Int) := Int.ne_of_gt (Int.lt_trans (by decide) hpid)
      rw [if_neg (Int.ne_of_gt hpid), if_pos hne]
      exact parent_guards h₂
  · exact guards_exit h.late

theorem reachable_late (h : Reachable environment (start buffer argv) C) : Late C.world := by
  refine reachable_guarantees (i := .parent) (R := Disturbs)
    (P := follow (fun _ : Outcome Exit Unit => Late) (fun _ => Late)) (fun j w c a w' hj ha => ?_)
    (fun w w' hw h => late_disturbs hw h) main_guards h
  cases j with
  | parent => exact absurd rfl hj
  | child => exact childCalls_disturbs ha

/-- In every interleaving in which the child does not exit before the handler is
installed, the parent sends at most one more probe. -/
theorem exit_noticed (h : Reachable environment (start buffer argv) C)
    (hm : ∀ m, C.world.exited = some m → m.handled = true) : OneMore C.world :=
  fun m he => reachable_late h m he (hm m he)

/-- All calls succeed, and packets come from `127.0.0.1` only. -/
def cooperate : Party → World → (c : Call) → Option (Answer c × World)
  | .parent, w, .fork => some ((2 : Int), { w with forked := true })
  | .parent, w, .sigaction => some ((0 : Int), { w with handled := true })
  | .parent, w, .gotSIGCHLD => some (w.gotSIGCHLD, w)
  | .parent, w, .sendto _ bytes _ =>
      some ((bytes.length : Int), deliver { w with probes := w.probes + 1 })
  | .parent, w, .socket _ => some ((4 : Int), deliver w)
  | .parent, w, .setsockopt _ _ | .parent, w, .sleep _ | .parent, w, .close _ =>
      some ((0 : Int), deliver w)
  | .parent, w, .exit _ _ => some ((), deliver w)
  | .child, w, c =>
    if w.forked = true ∧ w.exited = none then
      match c with
      | .fork | .printf _ | .close _ => some ((0 : Int), w)
      | .socket _ => some ((3 : Int), w)
      | .recvfrom _ size => some (some ((packetFrom ⟨127, 0, 0, 1⟩).bytes.take size),
          { w with received := w.received ++ [packetFrom ⟨127, 0, 0, 1⟩] })
      | .exit _ _ => some ((), exitChild w)
      | _ => none
    else none
  | .parent, _, .recvfrom _ _ | .parent, _, .printf _ => none

theorem cooperate_allowed (i : Party) (w : World) (c : Call) (a : Answer c) (w' : World)
    (h : cooperate i w c = some (a, w')) : environment i w c a w' := by
  cases i with
  | parent =>
    cases c with
    | fork =>
      cases h
      exact .inr ⟨by decide, rfl⟩
    | sigaction =>
      cases h
      exact .inr ⟨rfl, rfl⟩
    | gotSIGCHLD =>
      cases h
      exact ⟨.inl rfl, rfl⟩
    | sendto outSock bytes sockAddr =>
      cases h
      refine .inr ⟨?_, rfl⟩
      show (bytes.length : Int) ≠ -1
      omega
    | socket | setsockopt | sleep | close | exit =>
      cases h
      rfl
    | recvfrom | printf => cases h
  | child =>
    simp only [cooperate] at h
    split at h
    · next hw =>
      refine ⟨hw.1, hw.2, ?_⟩
      cases c with
      | fork =>
        cases h
        exact ⟨rfl, rfl⟩
      | recvfrom inSock size =>
        cases h
        exact .inr ⟨_, rfl, rfl⟩
      | socket | printf | close | exit =>
        cases h
        rfl
      | sigaction | gotSIGCHLD | setsockopt | sendto | sleep => cases h
    · cases h

/-- Both processes look for `127.0.0.1`, and take their steps in a given order. -/
def scheduled (schedule : List Party) : System :=
  schedule.foldl (fun C i => advance cooperate i C)
    (start (Buffer.zeros bufsize) [ascii "pseudo-tr", ascii "127.0.0.1"])

theorem scheduled_reachable (schedule : List Party) : Reachable environment
    (start (Buffer.zeros bufsize) [ascii "pseudo-tr", ascii "127.0.0.1"]) (scheduled schedule) :=
  schedule_reachable cooperate_allowed _ _

/-- The child exits after the first probe, and the second one is still sent. -/
def inTime : List Party :=
  List.replicate 7 .parent ++ List.replicate 6 .child ++ List.replicate 3 .parent ++ [.child] ++
    List.replicate 6 .parent

theorem exit_noticed_inTime : OneMore (scheduled inTime).world :=
  exit_noticed (scheduled_reachable inTime) (by decide +kernel)

/-- The destination answers while the handler is not installed yet. -/
def tooEarly : List Party :=
  [.parent] ++ List.replicate 7 .child ++ List.replicate 11 .parent

theorem exit_unnoticed : ∃ C, Reachable environment
      (start (Buffer.zeros bufsize) [ascii "pseudo-tr", ascii "127.0.0.1"]) C ∧
    C.world.received.map Packet.source = [⟨127, 0, 0, 1⟩] ∧ ¬ OneMore C.world := by
  refine ⟨scheduled tooEarly, scheduled_reachable tooEarly, by decide +kernel, fun h => ?_⟩
  have hexited : (scheduled tooEarly).world.exited = some ⟨0, false⟩ := by decide +kernel
  have hprobes : (scheduled tooEarly).world.probes = 2 := by decide +kernel
  have hle := h _ hexited
  rw [hprobes] at hle
  exact absurd hle (by decide)

end Ti3.Tr.Signals
