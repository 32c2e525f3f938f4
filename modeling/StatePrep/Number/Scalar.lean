/-! # Scalars

The numbers that angles and the parts of amplitudes are made of. Everything in the library is
written over an arbitrary type of scalars, so one definition is run on machine floats and read over
the rationals or the reals. The classes list operations only and assume no law: what needs a law of
arithmetic says so where it is proved.

* `Scalar`: the ring operations, division, comparison, magnitude;
* `Analytic`: the functions that rotations and phases need besides.

Counts are natural numbers. A power of them is always the one that `Nat.pow` computes, also where a
library brings a more general power. -/

namespace StatePrep

attribute [scoped instance (high)] instPowNat

/-- Numbers with arithmetic, comparison and magnitude. Comparisons are the ones the number type
computes with: on floats `==` holds between the two zeros and fails between a NaN and itself. -/
class Scalar (α : Type) extends Zero α, One α, Add α, Sub α, Mul α, Div α, Neg α, NatCast α,
    IntCast α, LT α, LE α, BEq α where
  decLT : DecidableLT α
  decLE : DecidableLE α
  abs : α → α
  /-- Whether the number is neither infinite nor undefined. -/
  isFinite : α → Bool

/-- Scalars with the functions of analysis that rotations and phases need. -/
class Analytic (α : Type) extends Scalar α where
  pi : α
  sqrt : α → α
  sin : α → α
  cos : α → α
  /-- The length of the vector with the two given coordinates. -/
  hypot : α → α → α
  /-- `atan2 y x` is the angle of the vector `(x, y)`. -/
  atan2 : α → α → α

namespace Scalar

variable {α : Type} [Scalar α]

instance : DecidableLT α := Scalar.decLT

instance : DecidableLE α := Scalar.decLE

def half (x : α) : α := x / (1 + 1)

end Scalar

/-! ### Powers of two

The lengths that occur for lists indexed by the values of some qubits. -/

/-- Whether a natural number is a power of two. Zero is not one, and one is. -/
def isPowerOfTwo (n : Nat) : Bool := n == 2 ^ n.log2

theorem isPowerOfTwo_iff {n : Nat} : isPowerOfTwo n = true ↔ ∃ k : Nat, n = 2 ^ k := by
  rw [isPowerOfTwo, beq_iff_eq]
  constructor
  · exact fun h => ⟨n.log2, h⟩
  · rintro ⟨k, rfl⟩
    rw [Nat.log2_two_pow]

end StatePrep
