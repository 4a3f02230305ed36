import Ti3.Http.EndOfFile

namespace Ti3.Http.ClientCount

open Library.CMemory Library.Interaction Library.Linked Library.Rules Library.History
open Server Descriptors Invariants Iterations EndOfFile

/-- The counter, the list and the greatest descriptor agree. -/
structure Booked (sockFd : Int) (s : State) : Prop where
  counted : s.clientCnt = s.clientFds.values.length
  nonneg : 0 ≤ s.clientCnt
  bounded : s.clientCnt ≤ maxClientCnt
  sock : sockFd ≤ s.maxFd
  clients : ∀ d ∈ s.clientFds.values, d ≤ s.maxFd

/-- The main loop starts with a call of `pselect` that watches the socket and all
clients in the list. -/
def Watches (sockFd : Int) (s : State) : Prop :=
  ∃ nfds readfds k, mainStep sockFd s = .call (.pselect nfds readfds) k ∧
    ∀ d ∈ sockFd :: s.clientFds.values, d ∈ readfds ∧ d < nfds

variable {allowed : History → (c : Call) → Answer c → Prop} {sockFd fd : Int} {s s' : State}
variable {h : History}

theorem booked_start (requestLine : RequestLine) :
    Booked sockFd (State.start sockFd requestLine) where
  counted := rfl
  nonneg := Int.le_refl _
  bounded := show (0 : Int) ≤ 50 by decide
  sock := Int.le_refl _
  clients _ hd := absurd hd List.not_mem_nil

theorem booked_connect (hlt : s.clientCnt < maxClientCnt) (hb : Booked sockFd s) :
    Booked sockFd (connect s fd) where
  counted := by simp [connect, hb.counted]
  nonneg := Int.add_nonneg hb.nonneg (by decide)
  bounded := hlt
  sock := Int.le_trans hb.sock (Int.le_max_left _ _)
  clients d hd := by
    obtain rfl | hd := List.mem_cons.mp hd
    · exact Int.le_max_right _ _
    · exact Int.le_trans (hb.clients d hd) (Int.le_max_left _ _)

/-- Both the counter and the list lose one client. -/
theorem booked_removed (hm : fd ∈ s.clientFds.values)
    (hr : s'.clientFds = s.clientFds.remove fd ∧ s'.clientCnt = s.clientCnt - 1 ∧
      s'.maxFd = s.maxFd) (hb : Booked sockFd s) : Booked sockFd s' := by
  obtain ⟨hclients, hcnt, hmax⟩ := hr
  have hvalues : s'.clientFds.values = s.clientFds.values.erase fd := by
    rw [hclients, values_remove]
  have hlength : s'.clientFds.values.length + 1 = s.clientFds.values.length := by
    rw [hvalues, List.length_erase_of_mem hm]
    exact Nat.sub_add_cancel (List.length_pos_of_mem hm)
  have hcounted : s'.clientCnt = s'.clientFds.values.length := by
    rw [hcnt, hb.counted]
    omega
  refine ⟨hcounted, hcounted ▸ Int.natCast_nonneg _, ?_, hmax ▸ hb.sock, fun d hd => ?_⟩
  · exact hcnt ▸ Int.le_trans (Int.sub_le_self s.clientCnt (by decide)) hb.bounded
  · rw [hvalues] at hd
    exact hmax ▸ hb.clients d (List.mem_of_mem_erase hd)

theorem booked_preserved :
    Preserved allowed (fun _ _ _ => True) sockFd (fun s _ => Booked sockFd s) where
  other _ hb := ⟨trivial, hb⟩
  accept _ hlt hb := ⟨trivial, booked_connect hlt hb⟩
  idle _ hb := ⟨trivial, hb⟩
  serve _ _ hm hb := ⟨trivial, keeps_mono (serveRead_removes _)
    (fun _ _ hr => booked_removed hm hr hb)⟩
  shutDown _ := shutDown_halts

theorem booked_watches (hb : Booked sockFd s) : Watches sockFd s := by
  refine ⟨s.maxFd + 1, sockFd :: s.clientFds.values, _, rfl, fun d hd => ⟨hd, ?_⟩⟩
  apply Int.lt_add_one_of_le
  obtain rfl | hd := List.mem_cons.mp hd
  · exact hb.sock
  · exact hb.clients d hd

/-- Whatever the calls answer, the books are right whenever the main loop starts again,
and no registered descriptor is left out of the watch. -/
theorem clients_booked {requestLine : RequestLine}
    (hh : Heads (recorded allowed) (mainStep sockFd) (State.start sockFd requestLine) [] s h) :
    Booked sockFd s ∧ Watches sockFd s := by
  have hb := heads_preserved booked_preserved (booked_start requestLine) hh
  exact ⟨hb, booked_watches hb⟩

theorem clients_booked_first : Booked 3 (connect (State.start 3 (Buffer.zeros _)) 5) ∧
    Watches 3 (connect (State.start 3 (Buffer.zeros _)) 5) :=
  clients_booked (first_head (Buffer.zeros _) (.inr (by decide)) (by decide))

end Ti3.Http.ClientCount
