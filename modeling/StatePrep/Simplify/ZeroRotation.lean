import StatePrep.Simplify.Pass

/-! # Zero rotations

A rotation about an axis by an angle that counts as zero does nothing worth a gate. The pass takes
all of them out, at any depth, and with them every composite below the root that is left, or was
from the start, without children. Other gates stay, and so does a rotation whose angle is not a
number. -/

namespace StatePrep

namespace ZeroRotation

variable {α : Type} [Scalar α]

/-- Whether the operation is a rotation by an angle that counts as zero. -/
def isZeroRotation (s : Settings α) (op : Operation α) : Bool :=
  match op.gate.angle? with
  | some theta => s.flush theta == 0
  | none => false

mutual

/-- What is left of a tree, if anything, and the number of leaves taken out of it. -/
def clear (s : Settings α) : GateTree α → Option (GateTree α) × Nat
  | .leaf op => if isZeroRotation s op then (none, 1) else (some (.leaf op), 0)
  | .composite name children =>
    let inner := clearAll s children
    (if inner.1.isEmpty then none else some (.composite name inner.1), inner.2)

/-- What is left of a list of trees, and the number of leaves taken out of them. -/
def clearAll (s : Settings α) : List (GateTree α) → List (GateTree α) × Nat
  | [] => ([], 0)
  | t :: ts =>
    let first := clear s t
    let others := clearAll s ts
    (first.1.toList ++ others.1, first.2 + others.2)

end

mutual

theorem leafCount_clear (s : Settings α) : ∀ t : GateTree α,
    GateTree.leafCountAll (clear s t).1.toList + (clear s t).2 = t.leafCount
  | .leaf op => by
    rw [clear]
    split <;> simp [GateTree.leafCountAll, GateTree.leafCount]
  | .composite name children => by
    have key := leafCount_clearAll s children
    rw [clear, GateTree.leafCount, ← key]
    dsimp only
    split
    · next h => rw [List.isEmpty_iff.mp h]; simp [GateTree.leafCountAll]
    · simp [GateTree.leafCountAll, GateTree.leafCount]

theorem leafCount_clearAll (s : Settings α) : ∀ ts : List (GateTree α),
    GateTree.leafCountAll (clearAll s ts).1 + (clearAll s ts).2 = GateTree.leafCountAll ts
  | [] => rfl
  | t :: ts => by
    have first := leafCount_clear s t
    have others := leafCount_clearAll s ts
    rw [clearAll, GateTree.leafCountAll, GateTree.leafCountAll_append]
    omega

end

end ZeroRotation

/-- The pass that takes zero rotations out. -/
def zeroRotationPass {α : Type} [Scalar α] : Pass α where
  name := "RemoveZeroRotations"
  run s c :=
    let kept := ZeroRotation.clearAll s c.children
    ({ c with children := kept.1 }, kept.2)
  leafCount_run s c := ZeroRotation.leafCount_clearAll s c.children

end StatePrep
