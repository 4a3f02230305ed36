import Mathlib.Data.List.Nodup
import Mathlib.Data.List.TakeWhile

namespace Ti3.Library.Linked

structure Node (α : Type) where
  address : Nat
  data : α
  deriving DecidableEq

/-- A singly linked list in memory. New nodes get new addresses. -/
structure LinkedList (α : Type) where
  nodes : List (Node α)
  fresh : Nat
  below : ∀ n ∈ nodes, n.address < fresh
  nodup : (nodes.map Node.address).Nodup

variable {α : Type} {l : LinkedList α} {a b : α}

namespace LinkedList

def empty : LinkedList α := ⟨[], 0, by simp, by simp⟩

def values (l : LinkedList α) : List α := l.nodes.map Node.data

def first (l : LinkedList α) : Option Nat := l.nodes.head?.map Node.address

def nodeAt (l : LinkedList α) (address : Nat) : Option (Node α) :=
  l.nodes.find? (fun n => n.address = address)

def prepend (l : LinkedList α) (a : α) : LinkedList α where
  nodes := ⟨l.fresh, a⟩ :: l.nodes
  fresh := l.fresh + 1
  below := by
    intro n hn
    obtain rfl | hn := List.mem_cons.mp hn
    · exact Nat.lt_succ_self _
    · exact Nat.lt_succ_of_lt (l.below n hn)
  nodup := by
    rw [List.map_cons, List.nodup_cons]
    refine ⟨fun h => ?_, l.nodup⟩
    obtain ⟨n, hn, he⟩ := List.mem_map.mp h
    exact Nat.ne_of_lt (l.below n hn) he

/-- Without the first node that holds a value. -/
def remove [DecidableEq α] (l : LinkedList α) (a : α) : LinkedList α where
  nodes := l.nodes.eraseP (fun n => n.data = a)
  fresh := l.fresh
  below := fun n hn => l.below n (List.mem_of_mem_eraseP hn)
  nodup := l.nodup.sublist (List.eraseP_sublist.map _)

/-- The address after a node, unless there is no such node. -/
def next (l : LinkedList α) (address : Nat) : Option (Option Nat) :=
  match l.nodes.dropWhile (fun n => n.address ≠ address) with
  | [] => none
  | _ :: rest => some (rest.head?.map Node.address)

end LinkedList

@[simp] theorem values_prepend : (l.prepend a).values = a :: l.values := rfl

@[simp] theorem values_remove [DecidableEq α] : (l.remove a).values = l.values.erase a := by
  have hp : (fun n : Node α => decide (n.data = a)) = (fun b => b == a) ∘ Node.data := by
    funext n
    simp [beq_eq_decide]
  simp only [LinkedList.values, LinkedList.remove, List.erase_eq_eraseP', List.eraseP_map, hp]

theorem nodeAt_mem {address : Nat} {n : Node α} (h : l.nodeAt address = some n) :
    n.data ∈ l.values := List.mem_map_of_mem (List.mem_of_find?_eq_some h)

section

variable {u v : List (Node α)} {n : Node α}

/-- The nodes around a node have other addresses. -/
theorem address_apart (h : l.nodes = u ++ n :: v) (m : Node α) (hm : m ∈ u ++ v) :
    m.address ≠ n.address := by
  have hnodup := l.nodup
  rw [h, List.map_append, List.map_cons, List.nodup_middle, List.nodup_cons,
    ← List.map_append] at hnodup
  intro he
  exact hnodup.1 (he ▸ List.mem_map_of_mem hm)

theorem nodeAt_node (h : l.nodes = u ++ n :: v) : l.nodeAt n.address = some n := by
  have hu : ∀ m ∈ u, ¬ decide (m.address = n.address) = true := by
    intro m hm he
    exact address_apart h m (List.mem_append_left v hm) (of_decide_eq_true he)
  rw [LinkedList.nodeAt, h, List.find?_append, List.find?_eq_none.mpr hu]
  simp

theorem next_node (h : l.nodes = u ++ n :: v) :
    l.next n.address = some (v.head?.map Node.address) := by
  have hu : ∀ m ∈ u, decide (m.address ≠ n.address) = true := by
    intro m hm
    exact decide_eq_true (address_apart h m (List.mem_append_left v hm))
  rw [LinkedList.next, h, List.dropWhile_append_of_pos hu]
  simp

theorem next_missing {address : Nat} (h : ∀ m ∈ l.nodes, m.address ≠ address) :
    l.next address = none := by
  have hall : l.nodes.dropWhile (fun m => m.address ≠ address) = [] :=
    List.dropWhile_eq_nil_iff.mpr (fun m hm => decide_eq_true (h m hm))
  rw [LinkedList.next, hall]

/-- The first node that holds a value is unlinked. -/
theorem next_removed [DecidableEq α] (h : l.nodes = u ++ n :: v)
    (hfirst : ∀ m ∈ u, m.data ≠ n.data) : (l.remove n.data).next n.address = none := by
  have hnodes : (l.remove n.data).nodes = u ++ v := by
    have hu : ∀ m ∈ u, ¬ decide (m.data = n.data) = true := fun m hm he =>
      hfirst m hm (of_decide_eq_true he)
    change l.nodes.eraseP (fun m => m.data = n.data) = u ++ v
    rw [h, List.eraseP_append_right _ hu, List.eraseP_cons_of_pos (by simp)]
  apply next_missing
  rw [hnodes]
  exact address_apart h

end

end Ti3.Library.Linked
