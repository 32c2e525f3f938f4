import StatePrep.Simplify.CxCancellation
import StatePrep.Simplify.ZeroRotation

/-! # Simplification

Zero rotations are taken out once, then controlled flips are cancelled until no two meet. Taking
out a rotation can let two flips meet, but a cancellation makes no rotation zero, so this order is
enough. -/

namespace StatePrep

/-- What a simplification did, in numbers of gates. A number has at most 64 bits. -/
structure SimplifyStats where
  before : Nat
  after : Nat
  /-- The rotations taken out as zero. -/
  rotations : Nat
  /-- The pairs of controlled flips that cancelled. -/
  cxPairs : Nat
  /-- The repetitions of the cancellation, with the last one, which found nothing. -/
  passes : Nat
  deriving DecidableEq

namespace SimplifyStats

/-- The numbers of a tree of `gates` gates that nothing was done to. -/
def unchanged (gates : Nat) : SimplifyStats := ⟨gates, gates, 0, 0, 0⟩

/-- The fraction of the gates that is gone, zero if there were none. The difference is taken in words
of 64 bits. It wraps if more gates are left than there were, which no simplification reports. -/
def savedFraction {α : Type} [Scalar α] (s : SimplifyStats) : α :=
  if s.before = 0 then 0
  else ((s.before.toUInt64 - s.after.toUInt64).toNat : α) / (s.before : α)

end SimplifyStats

/-- The composite without zero rotations and without neighbouring equal controlled flips. -/
def Composite.simplify {α : Type} [Scalar α] (s : Settings α) (c : Composite α) :
    Composite α × SimplifyStats :=
  let cleared := zeroRotationPass.run s c
  let cancelled := cxCancellationPass.exhaust s cleared.1
  (cancelled.result,
    { before := c.leafCount
      after := cancelled.result.leafCount
      rotations := cleared.2
      cxPairs := cancelled.removed / 2
      passes := cancelled.passes })

end StatePrep
