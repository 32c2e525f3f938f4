import StatePrep.Number.Scalar

/-! # Gates

The elementary gates that a state is prepared with: three rotations about an axis, the general gate
of one qubit, the flip `x` and the controlled flip `cx`. Angles are concrete numbers. -/

namespace StatePrep

/-- An elementary gate with its angles. -/
inductive Gate (α : Type) where
  /-- The flip of one qubit. -/
  | x
  | rx (theta : α)
  | ry (theta : α)
  | rz (theta : α)
  /-- The general gate of one qubit. -/
  | u (theta phi lambda : α)
  /-- The flip of the second operand where the first is set. -/
  | cx
  deriving BEq

/-- An axis that a rotation can turn about. -/
inductive Axis where
  | x
  | y
  | z
  deriving DecidableEq

/-- The rotation about an axis by an angle. -/
def Axis.rotation {α : Type} : Axis → α → Gate α
  | .x, theta => .rx theta
  | .y, theta => .ry theta
  | .z, theta => .rz theta

namespace Gate

variable {α : Type}

def name : Gate α → String
  | .x => "x"
  | .rx _ => "rx"
  | .ry _ => "ry"
  | .rz _ => "rz"
  | .u _ _ _ => "u"
  | .cx => "cx"

def arity : Gate α → Nat
  | .cx => 2
  | _ => 1

/-- The angle of a rotation about an axis. The general gate is not counted among these. -/
def angle? : Gate α → Option α
  | .rx theta | .ry theta | .rz theta => some theta
  | .x | .u _ _ _ | .cx => none

def isRotation (g : Gate α) : Bool := g.angle?.isSome

def isCx : Gate α → Bool
  | .cx => true
  | _ => false

/-- The gate that undoes this one: angles are negated, and those of the general gate after the first
change places. -/
def inverse [Neg α] : Gate α → Gate α
  | .x => .x
  | .rx theta => .rx (-theta)
  | .ry theta => .ry (-theta)
  | .rz theta => .rz (-theta)
  | .u theta phi lambda => .u (-theta) (-lambda) (-phi)
  | .cx => .cx

theorem inverse_inverse [Neg α] (hneg : ∀ x : α, -(-x) = x) (g : Gate α) :
    g.inverse.inverse = g := by
  cases g <;> simp only [inverse, hneg]

end Gate

end StatePrep
