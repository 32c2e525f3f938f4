import StatePrep.Tree.Basic

/-! # Walking the leaves

A `Cursor` is a place in a depth-first walk over a tree: the lists of trees still to be visited,
the innermost first. `Cursor.next?` gives the next leaf and the place behind it; composites without
leaves are passed over on the way. `GateTree.leaves` is the whole walk. -/

namespace StatePrep

/-- A place in a walk: the lists of siblings still to be visited, the innermost first. -/
structure Cursor (α : Type) where
  /-- The lists of siblings still to be visited. -/
  pending : List (List (GateTree α))

namespace Cursor

variable {α : Type}

/-- The place before the first leaf of a tree. -/
def start (t : GateTree α) : Cursor α := ⟨[[t]]⟩

/-- The next leaf and the place behind it, if any leaf is left. -/
def next? (c : Cursor α) : Option (Operation α × Cursor α) :=
  match c with
  | ⟨[]⟩ => none
  | ⟨[] :: outer⟩ => next? ⟨outer⟩
  | ⟨(.leaf op :: siblings) :: outer⟩ => some (op, ⟨siblings :: outer⟩)
  | ⟨(.composite _ children :: siblings) :: outer⟩ => next? ⟨children :: siblings :: outer⟩
termination_by sizeOf c.pending
decreasing_by all_goals simp; try omega

/-- A step of the walk leaves less to visit. -/
theorem sizeOf_pending_lt_of_next? {c d : Cursor α} {op : Operation α}
    (h : c.next? = some (op, d)) : sizeOf d.pending < sizeOf c.pending := by
  fun_induction next? c with
  | case1 => cases h
  | case2 outer ih => have := ih h; simp at this ⊢; omega
  | case3 op' siblings outer => cases h; simp only [List.cons.sizeOf_spec]; omega
  | case4 name children siblings outer ih => have := ih h; simp at this ⊢; omega

/-- The leaves from this place on. -/
def rest (c : Cursor α) : List (Operation α) :=
  match _h : c.next? with
  | none => []
  | some (op, d) => op :: d.rest
termination_by sizeOf c.pending
decreasing_by exact sizeOf_pending_lt_of_next? _h

end Cursor

/-- The leaves of a tree in the order a walk meets them. -/
def GateTree.leaves {α : Type} (t : GateTree α) : List (Operation α) := (Cursor.start t).rest

end StatePrep
