import StatePrep.Number.Scalar

/-! # Settings

The tolerance behind every comparison of numbers, and whether a prepared tree is simplified. -/

namespace StatePrep

/-- What the user chooses for a preparation. -/
structure Settings (α : Type) where
  /-- The magnitude below which a number counts as zero. -/
  tolerance : α
  /-- Whether zero rotations and cancelling gates are taken out of the result. -/
  simplify : Bool
  deriving BEq

namespace Settings

variable {α : Type} [Scalar α]

/-- A tolerance of one in ten thousand million, with simplification. -/
def standard : Settings α := ⟨1 / ((10000000000 : Nat) : α), true⟩

/-- Whether the tolerance is a positive finite number. -/
def isUsable (s : Settings α) : Bool := Scalar.isFinite s.tolerance && 0 < s.tolerance

/-- The number itself, or zero if its magnitude is below the tolerance. -/
def flush (s : Settings α) (x : α) : α := if Scalar.abs x < s.tolerance then 0 else x

/-- Whether two numbers differ by at most the tolerance. -/
def agree (s : Settings α) (x y : α) : Bool := Scalar.abs (x - y) ≤ s.tolerance

end Settings

end StatePrep
