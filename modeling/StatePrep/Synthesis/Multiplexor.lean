import StatePrep.Number.Scalar
import StatePrep.Tree.Order

/-! # Multiplexors

A multiplexor rotates a target qubit by an angle that the control qubits choose: with `k` controls
there are `2 ^ k` angles, and bit `j` of the index of an angle is the value of control `j`. The
controls are the qubits of a register right above the target.

It is built from two multiplexors with one control fewer. A flip of the target turns a rotation
about the `y` or the `z` axis into the opposite one, so the half-sums of the angles, a flip, their
half-differences and a second flip add up to the angle for the one value of the control and to the
other angle for the other. The second part is put in the turned order, where it opens with the flip
that the first part ends in; that flip is therefore left out of both. Only the outermost
multiplexor has a flip at its end.

Every level checks the number of its angles and finds its target and its highest control in the
register; `MultiplexorError` says what can fail. -/

namespace StatePrep

/-- Why a multiplexor cannot be built. -/
inductive MultiplexorError where
  /-- The number of angles is no power of two. -/
  | angleCount (got : Nat)
  /-- The target or a control lies outside the register. -/
  | outsideRegister
  deriving DecidableEq

def MultiplexorError.message? : MultiplexorError → Option String
  | .angleCount got => some s!"multiplexor needs 2^k angles, got {got}"
  | .outsideRegister => none

/-- A register with an axis to rotate its qubits about. -/
structure Multiplexor where
  /-- The qubits, the least significant first. -/
  register : List Qubit
  axis : Axis

namespace Multiplexor

variable {α : Type} [Scalar α]

/-- Half the sum of each angle of the first half and its partner in the second. -/
def halfSums (angles : List α) : List α :=
  let half := angles.length / 2
  List.zipWith (fun a b => Scalar.half (a + b)) (angles.take half) (angles.drop half)

/-- Half the difference of each angle of the first half and its partner in the second. -/
def halfDifferences (angles : List α) : List α :=
  let half := angles.length / 2
  List.zipWith (fun a b => Scalar.half (a - b)) (angles.take half) (angles.drop half)

/-- The tree of the multiplexor with a given number of controls whose target is at place `bottom`
of the register. -/
def ofControls (m : Multiplexor) (bottom : Nat) : (controls : Nat) → List α →
    Except MultiplexorError (GateTree α)
  | 0, angles =>
    match angles, m.register[bottom]? with
    | [angle], some target => .ok (.leaf (.rotation m.axis angle target))
    | [_], none => .error .outsideRegister
    | _, _ => .error (.angleCount angles.length)
  | controls + 1, angles =>
    if angles.length ≠ 2 ^ (controls + 1) then .error (.angleCount angles.length)
    else
      match m.register[bottom]?, m.register[bottom + controls + 1]? with
      | some target, some control => do
        let low ← m.ofControls bottom controls (halfSums angles)
        let high ← m.ofControls bottom controls (halfDifferences angles)
        let flip : GateTree α := .leaf (.cx control target)
        let closing := if m.register.length = bottom + controls + 2 then [flip] else []
        return .composite s!"multiplex{controls + 2}" ([low, flip, high.reverse] ++ closing)
      | _, _ => .error .outsideRegister

/-- The tree of the multiplexor with the given angles whose target is at place `bottom` of the
register. The number of controls is the number of bits that the index of an angle has. -/
def toTree (m : Multiplexor) (bottom : Nat) (angles : List α) :
    Except MultiplexorError (GateTree α) :=
  m.ofControls bottom angles.length.log2 angles

end Multiplexor

end StatePrep
