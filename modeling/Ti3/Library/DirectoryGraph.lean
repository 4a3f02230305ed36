import Mathlib.Data.List.Basic

namespace Ti3.Library.DirectoryGraph

/-- Directories with named entries, some of which lead to directories. -/
structure DirGraph (Name Dir : Type) where
  entries : Dir → List (Name × Option Dir)

namespace DirGraph

variable {Name Dir : Type} [DecidableEq Name]

/-- Where the first entry leads that has the name and leads somewhere. -/
def enter (G : DirGraph Name Dir) (d : Dir) (c : Name) : Option Dir :=
  (G.entries d).findSome? (fun e => if e.1 = c then e.2 else none)

/-- The directory at the end of a path, or the first name on it that leads nowhere. -/
def resolve (G : DirGraph Name Dir) (d : Dir) : List Name → Except Name Dir
  | [] => .ok d
  | c :: cs => match G.enter d c with
    | some t => resolve G t cs
    | none => .error c

variable {G : DirGraph Name Dir} {d t : Dir} {c : Name}

theorem enter_none : G.enter d c = none ↔ ∀ e ∈ G.entries d, e.1 = c → e.2 = none := by
  rw [enter, List.findSome?_eq_none_iff]
  constructor
  · intro h e he hc
    have hnone := h e he
    rwa [if_pos hc] at hnone
  · intro h e he
    by_cases hc : e.1 = c
    · rw [if_pos hc, h e he hc]
    · rw [if_neg hc]

/-- What stands behind a passed entry is searched on its own. -/
theorem findSome_passed {es fs : List (Name × Option Dir)}
    (h : ∀ e ∈ es, e.1 = c → e.2 = none) :
    (es ++ fs).findSome? (fun e => if e.1 = c then e.2 else none) =
      fs.findSome? (fun e => if e.1 = c then e.2 else none) := by
  have hnone : es.findSome? (fun e => if e.1 = c then e.2 else none) = none := by
    apply List.findSome?_eq_none_iff.mpr
    intro e he
    by_cases hc : e.1 = c
    · rw [if_pos hc, h e he hc]
    · rw [if_neg hc]
  rw [List.findSome?_append, hnone, Option.none_or]

theorem enter_some {es fs : List (Name × Option Dir)} (hd : G.entries d = es ++ (c, some t) :: fs)
    (h : ∀ e ∈ es, e.1 = c → e.2 = none) : G.enter d c = some t := by
  rw [enter, hd, findSome_passed h, List.findSome?_cons, if_pos rfl]

end DirGraph

end Ti3.Library.DirectoryGraph
