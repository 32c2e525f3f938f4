import StatePrep.Gate.Operation

/-! # Gate trees

A gate sequence with names on its parts: a leaf is one operation, a composite is a named list of
trees in the order of application. Composites without leaves are allowed anywhere.

What a tree does is decided by its leaves from left to right, `GateTree.flatten`. A `Composite` is a
tree known to have a composite at its root, which is what simplification works on. -/

namespace StatePrep

/-- An operation, or a named sequence of trees. -/
inductive GateTree (α : Type) where
  | leaf (op : Operation α)
  /-- A named sequence, in the order of application. -/
  | composite (name : String) (children : List (GateTree α))

/-- A named sequence of trees. -/
structure Composite (α : Type) where
  name : String
  /-- The parts, in the order of application. -/
  children : List (GateTree α)

namespace GateTree

variable {α : Type}

/-! ### Leaves -/

mutual

/-- The leaves from left to right, which is the order of application. -/
def flatten : GateTree α → List (Operation α)
  | .leaf op => [op]
  | .composite _ children => flattenAll children

/-- The leaves of a list of trees, one tree after the other. -/
def flattenAll : List (GateTree α) → List (Operation α)
  | [] => []
  | t :: ts => t.flatten ++ flattenAll ts

end

mutual

def leafCount : GateTree α → Nat
  | .leaf _ => 1
  | .composite _ children => leafCountAll children

def leafCountAll : List (GateTree α) → Nat
  | [] => 0
  | t :: ts => t.leafCount + leafCountAll ts

end

mutual

theorem length_flatten : ∀ t : GateTree α, t.flatten.length = t.leafCount
  | .leaf _ => rfl
  | .composite _ children => by
    rw [flatten, leafCount]; exact length_flattenAll children

theorem length_flattenAll : ∀ ts : List (GateTree α), (flattenAll ts).length = leafCountAll ts
  | [] => rfl
  | t :: ts => by
    rw [flattenAll, leafCountAll, List.length_append, length_flatten t, length_flattenAll ts]

end

theorem flattenAll_eq_flatMap (ts : List (GateTree α)) : flattenAll ts = ts.flatMap flatten := by
  induction ts with
  | nil => rfl
  | cons t ts ih => rw [flattenAll, List.flatMap_cons, ih]

@[simp] theorem flattenAll_append (ts us : List (GateTree α)) :
    flattenAll (ts ++ us) = flattenAll ts ++ flattenAll us := by
  simp [flattenAll_eq_flatMap]

@[simp] theorem leafCountAll_append (ts us : List (GateTree α)) :
    leafCountAll (ts ++ us) = leafCountAll ts + leafCountAll us := by
  simp [← length_flattenAll]

/-! ### Parts -/

/-- The name of the gate of a leaf, or of a composite. -/
def name : GateTree α → String
  | .leaf op => op.name
  | .composite name _ => name

def isLeaf : GateTree α → Bool
  | .leaf _ => true
  | .composite _ _ => false

/-- Whether the tree is a composite without children. -/
def isChildless : GateTree α → Bool
  | .leaf _ => false
  | .composite _ children => children.isEmpty

def operation? : GateTree α → Option (Operation α)
  | .leaf op => some op
  | .composite _ _ => none

def composite? : GateTree α → Option (Composite α)
  | .leaf _ => none
  | .composite name children => some ⟨name, children⟩

/-! ### Comparison -/

mutual

/-- Equality of trees that compares angles as the number type does. -/
def equal [BEq α] : GateTree α → GateTree α → Bool
  | .leaf op, .leaf other => op == other
  | .composite m ts, .composite n us => m == n && equalAll ts us
  | _, _ => false

/-- Equality of lists of trees, place by place. -/
def equalAll [BEq α] : List (GateTree α) → List (GateTree α) → Bool
  | [], [] => true
  | t :: ts, u :: us => t.equal u && equalAll ts us
  | _, _ => false

end

instance [BEq α] : BEq (GateTree α) := ⟨equal⟩

end GateTree

namespace Composite

variable {α : Type}

def toTree (c : Composite α) : GateTree α := .composite c.name c.children

/-- The number of leaves below the composite. -/
def leafCount (c : Composite α) : Nat := GateTree.leafCountAll c.children

/-- The composite with one more part at the end. -/
def push (c : Composite α) (t : GateTree α) : Composite α :=
  { c with children := c.children ++ [t] }

end Composite

end StatePrep
