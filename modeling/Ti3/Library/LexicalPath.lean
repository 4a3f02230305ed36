import Mathlib.Data.List.Infix
import Ti3.Library.CString

namespace Ti3.Library.LexicalPath

open CString

/-- One step on a path: it stays, goes to the directory above, or enters a name. -/
inductive Component (α : Type) where
  | here
  | above
  | name (a : α)
  deriving DecidableEq

variable {α : Type}

/-- A place is given by the names on the way to it from the root, which is above
itself. -/
def step (place : List α) : Component α → List α
  | .here => place
  | .above => place.dropLast
  | .name a => place ++ [a]

def walk (place : List α) (path : List (Component α)) : List α := path.foldl step place

theorem walk_append (place : List α) (path path' : List (Component α)) :
    walk place (path ++ path') = walk (walk place path) path' := List.foldl_append

/-- A path in which every step upwards has been cancelled against the name
before it: first the steps upwards that are left, then names. -/
structure Normal (α : Type) where
  climbs : Nat
  names : List α
  deriving DecidableEq

def Normal.step (n : Normal α) : Component α → Normal α
  | .here => n
  | .above => if n.names = [] then ⟨n.climbs + 1, []⟩ else ⟨n.climbs, n.names.dropLast⟩
  | .name a => ⟨n.climbs, n.names ++ [a]⟩

def normal (path : List (Component α)) : Normal α := path.foldl Normal.step ⟨0, []⟩

def Normal.follow (n : Normal α) (place : List α) : List α :=
  place.take (place.length - n.climbs) ++ n.names

theorem follow_step (n : Normal α) (place : List α) (c : Component α) :
    (n.step c).follow place = step (n.follow place) c := by
  cases c with
  | here => rfl
  | name a => simp [Normal.step, Normal.follow, step]
  | above =>
    by_cases hn : n.names = []
    · simp only [Normal.step, Normal.follow, step, hn, if_true, List.append_nil]
      rw [List.dropLast_eq_take, List.take_take, List.length_take]
      congr 1
      omega
    · simp only [Normal.step, Normal.follow, step, hn, if_false,
        List.dropLast_append_of_ne_nil hn]

theorem walk_normal (place : List α) (path : List (Component α)) :
    walk place path = (normal path).follow place := by
  induction path using List.reverseRecOn with
  | nil => simp [walk, normal, Normal.follow]
  | append_singleton path c ih =>
    have hn : normal (path ++ [c]) = (normal path).step c := List.foldl_append
    rw [walk_append, ih, hn, follow_step]
    rfl

/-- A place strictly inside a directory. -/
def Below (dir place : List α) : Prop := dir <+: place ∧ dir ≠ place

instance [DecidableEq α] (dir place : List α) : Decidable (Below dir place) :=
  inferInstanceAs (Decidable (_ ∧ _))

/-- A path leads to a place in the directory it starts from if it comes back by
the names it has gone up. -/
theorem prefix_walk {dir : List α} {path : List (Component α)} :
    dir <+: walk dir path ↔
      dir.drop (dir.length - (normal path).climbs) <+: (normal path).names := by
  rw [walk_normal, Normal.follow]
  conv_lhs => lhs; rw [← List.take_append_drop (dir.length - (normal path).climbs) dir]
  exact List.prefix_append_right_inj _

theorem below_walk {dir : List α} {path : List (Component α)} :
    Below dir (walk dir path) ↔
      Below (dir.drop (dir.length - (normal path).climbs)) (normal path).names := by
  have he : dir = walk dir path ↔
      dir.drop (dir.length - (normal path).climbs) = (normal path).names := by
    rw [walk_normal, Normal.follow]
    conv_lhs => lhs; rw [← List.take_append_drop (dir.length - (normal path).climbs) dir]
    exact List.append_right_inj _
  rw [Below, Below, prefix_walk, ne_eq, he]

def separator : UInt8 := 47

def component (s : Bytes) : Component Bytes :=
  if s = [] ∨ s = ascii "." then .here else if s = ascii ".." then .above else .name s

def components (path : Bytes) : List (Component Bytes) := (path.splitOn separator).map component

/-- The place a path leads to from a directory, when no name on the way is that
of a link. -/
def resolve (dir : List Bytes) (path : Bytes) : List Bytes :=
  walk (if path.head? = some separator then [] else dir) (components path)

theorem components_append (path path' : Bytes) :
    components (path ++ separator :: path') = components path ++ components path' := by
  rw [components, List.splitOn_append_cons_self, List.map_append, components, components]

theorem resolve_append {dir : List Bytes} {path : Bytes} (path' : Bytes) (hp : path ≠ []) :
    resolve dir (path ++ separator :: path') = walk (resolve dir path) (components path') := by
  have hh : (path ++ separator :: path').head? = path.head? := List.head?_append_of_ne_nil _ hp
  rw [resolve, hh, components_append, walk_append, resolve]

end Ti3.Library.LexicalPath
