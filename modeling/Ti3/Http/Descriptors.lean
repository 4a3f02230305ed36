import Ti3.Http.Server
import Ti3.Library.History

namespace Ti3.Http.Descriptors

open Library.CString Library.Interaction Library.Linked Library.Rules Library.History Server

abbrev History := List (Event Call Answer)

/-- A descriptor that `accept` returned and that has not been closed since. The
-1 of a failed `accept` is none. -/
def StillOpen : History → Int → Prop
  | [], _ => False
  | ⟨.accept _, fd⟩ :: h, d => d = fd ∧ d ≠ -1 ∨ StillOpen h d
  | ⟨.close fd, _⟩ :: h, d => d ≠ fd ∧ StillOpen h d
  | _ :: h, d => StillOpen h d

/-- The answers of the system: `accept` fails or returns an unused descriptor,
and no call transfers more bytes than it is given or asked for. -/
def Allowed (sockFd : Int) (h : History) (c : Call) (a : Answer c) : Prop :=
  match c, a with
  | .accept _, fd => fd = -1 ∨ 0 ≤ fd ∧ fd ≠ sockFd ∧ ¬ StillOpen h fd
  | .read _ count, bytes => (bytes.getD []).length ≤ count
  | .send _ _ bytes, sent => sent ≤ bytes.length
  | .fread _ count, bytes => bytes.length ≤ count
  | .pselect _ readfds, selected => selected.error = none → selected.readfds ⊆ readfds
  | _, _ => True

def onClient : Call → Bool
  | .accept _ | .send _ _ _ | .close _ => true
  | _ => false

def Same (h h' : History) : Prop := ∀ d, StillOpen h' d ↔ StillOpen h d

def Closed (fd : Int) (h h' : History) : Prop := ∀ d, StillOpen h' d ↔ d ≠ fd ∧ StillOpen h d

section

variable {h h' h'' : History} {fd : Int}

theorem same_other {c : Call} {a : Answer c} (hc : onClient c = false) : Same h (⟨c, a⟩ :: h) := by
  intro d
  cases c with
  | accept _ | close _ => cases hc
  | _ => rfl

theorem closed_of_same (hs : Same h h') (hc : Closed fd h' h'') : Closed fd h h'' := by
  intro d
  rw [hc d, hs d]

theorem closed_of_closed (hc : Closed fd h h') (hc' : Closed fd h' h'') : Closed fd h h'' := by
  intro d
  rw [hc' d, hc d, ← and_assoc, and_self]

end

end Ti3.Http.Descriptors
