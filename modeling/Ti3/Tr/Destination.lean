import Ti3.Library.Rules
import Ti3.Tr.PseudoTr

namespace Ti3.Tr.Destination

open Library.CString Library.CMemory Library.Inet Library.Interaction Library.Rules PseudoTr

/-- The packets to come, and the standard output. -/
structure Arrivals where
  packets : List Packet
  out : Bytes

/-- What the child gets. `recvfrom` blocks while there is no packet. -/
def arrivals (w : Arrivals) : (c : Call) → Answer c → Arrivals → Prop
  | .fork, a, w' => a = 0 ∧ w' = w
  | .socket _, a, w' | .close _, a, w' => a ≠ -1 ∧ w' = w
  | .recvfrom _ size, a, w' => ∃ p ps, w.packets = p :: ps ∧ a = some (p.bytes.take size) ∧
      w' = { w with packets := ps }
  | .printf text, _, w' => w' = { w with out := w.out ++ text }
  | .exit _ _, _, w' => w' = w
  | .sigaction, _, _ | .gotSIGCHLD, _, _ | .setsockopt _ _, _, _ | .sendto _ _ _, _, _
  | .sleep _, _, _ => False

variable {buffer : Buffer bufsize} {prog s : Bytes} {inSock : Int} {x : Address}
variable {ps rest : List Packet} {w w' : Arrivals}

/-- The first packet whose sender is printed as the argument has been received. -/
def Answered (s : Bytes) (ps : List Packet) (o : Outcome Exit Unit) (w : Arrivals) : Prop :=
  o ≠ .cut → ∃ init p, ps = init ++ p :: w.packets ∧ (∀ q ∈ init, inetNtoa q.source ≠ s) ∧
    inetNtoa p.source = s

/-- The sender of a packet is printed, and compared with the argument. -/
theorem receiveStep_runs (inSock : Int) (buffer : Buffer bufsize) {p : Packet}
    (h : w.packets = p :: rest) : ∃ buffer', Runs arrivals (receiveStep inSock s buffer) w
      (if inetNtoa p.source = s then .halted ⟨0, []⟩ else .returned (.inl buffer'))
      ⟨rest, w.out ++ (inetNtoa p.source ++ [newline])⟩ := by
  obtain ⟨b, bytes, hb⟩ := List.exists_cons_of_ne_nil p.take_ne_nil
  have hrecv : arrivals w (.recvfrom inSock bufsize) (some (b :: bytes))
      { w with packets := rest } := ⟨p, rest, h, congrArg some hb.symm, rfl⟩
  have hsaddr : saddr (buffer.fill (b :: bytes)) = p.source := hb ▸ saddr_fill p
  refine ⟨buffer.fill (b :: bytes), ?_⟩
  simp only [receiveStep, recvfrom, printf, close, library, ask_bind]
  refine runs_call hrecv ?_
  dsimp only
  rw [hsaddr]
  refine runs_call (a := (0 : Int)) rfl ?_
  by_cases hs : inetNtoa p.source = s
  · rw [if_pos hs, if_pos hs]
    refine runs_call (a := (0 : Int)) ⟨show (0 : Int) ≠ -1 by decide, rfl⟩ ?_
    exact runs_call (a := ()) rfl runs_halt
  · rw [if_neg hs, if_neg hs]
    exact runs_done

end Ti3.Tr.Destination
