import StatePrep.Tree.Basic

/-! # Inversion and reversal

Two ways to turn a tree around. `GateTree.inverse` turns the order at every level and inverts every
gate, so that the result undoes the tree. `GateTree.reverse` only turns the order: the gates stay as
they are. Both keep every name. -/

namespace StatePrep

namespace GateTree

variable {α : Type}

mutual

/-- The tree that undoes this one: the order is turned at every level and every gate is inverted. -/
def inverse [Neg α] : GateTree α → GateTree α
  | .leaf op => .leaf op.inverse
  | .composite name children => .composite name (inverseAll children)

/-- The inverses of a list of trees, the last one first. -/
def inverseAll [Neg α] : List (GateTree α) → List (GateTree α)
  | [] => []
  | t :: ts => inverseAll ts ++ [t.inverse]

end

mutual

/-- The tree with the order turned at every level and the same gates. -/
def reverse : GateTree α → GateTree α
  | .leaf op => .leaf op
  | .composite name children => .composite name (reverseAll children)

/-- A list of trees in the turned order, each of them turned. -/
def reverseAll : List (GateTree α) → List (GateTree α)
  | [] => []
  | t :: ts => reverseAll ts ++ [t.reverse]

end

theorem inverseAll_eq_map [Neg α] (ts : List (GateTree α)) :
    inverseAll ts = (ts.map inverse).reverse := by
  induction ts with
  | nil => rfl
  | cons t ts ih => rw [inverseAll, ih, List.map_cons, List.reverse_cons]

theorem reverseAll_eq_map (ts : List (GateTree α)) : reverseAll ts = (ts.map reverse).reverse := by
  induction ts with
  | nil => rfl
  | cons t ts ih => rw [reverseAll, ih, List.map_cons, List.reverse_cons]

end GateTree

namespace Composite

variable {α : Type}

/-- The composite that undoes this one. -/
def inverse [Neg α] (c : Composite α) : Composite α := ⟨c.name, GateTree.inverseAll c.children⟩

/-- The composite with the order turned at every level. -/
def reverse (c : Composite α) : Composite α := ⟨c.name, GateTree.reverseAll c.children⟩

theorem toTree_inverse [Neg α] (c : Composite α) : c.inverse.toTree = c.toTree.inverse := rfl

theorem toTree_reverse (c : Composite α) : c.reverse.toTree = c.toTree.reverse := rfl

end Composite

end StatePrep
