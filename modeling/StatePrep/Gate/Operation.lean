import StatePrep.Gate.Basic

/-! # Operations

A gate together with the qubits it acts on: the target of a gate on one qubit, the control and then
the target of `cx`. A qubit is known by its number, a word of 32 bits. The number is also the bit of
a basis state's index that holds the value of the qubit, the least significant bit belonging to
number zero.

An operation may carry a wrong list of operands; the circuit and the simulator are the ones to
refuse it, with a `CircuitError`. -/

namespace StatePrep

/-! ### Qubits -/

/-- A qubit, by its number. -/
structure Qubit where
  number : UInt32
  deriving DecidableEq

namespace Qubit

/-- The bit of a basis-state index that holds the value of the qubit. -/
def bit (q : Qubit) : Nat := q.number.toNat

/-- The qubit as it is written in listings: `q5`. -/
def label (q : Qubit) : String := s!"q{q.bit}"

theorem bit_inj {p q : Qubit} : p.bit = q.bit ↔ p = q := by
  cases p; cases q; simp [bit, UInt32.toNat_inj]

end Qubit

/-! ### Gates on qubits -/

/-- A gate applied to qubits. -/
structure Operation (α : Type) where
  gate : Gate α
  /-- The qubits, in the order the gate names them. -/
  operands : List Qubit
  deriving BEq

namespace Operation

variable {α : Type}

def single (gate : Gate α) (q : Qubit) : Operation α := ⟨gate, [q]⟩

/-- The rotation of a qubit about an axis. -/
def rotation (axis : Axis) (theta : α) (q : Qubit) : Operation α := single (axis.rotation theta) q

/-- The flip of `target` where `control` is set. -/
def cx (control target : Qubit) : Operation α := ⟨.cx, [control, target]⟩

def name (op : Operation α) : String := op.gate.name

def isCx (op : Operation α) : Bool := op.gate.isCx

/-- Whether two operations in a row undo each other: both are the controlled flip on the same
operands in the same order. -/
def cancels (op other : Operation α) : Bool :=
  op.isCx && other.isCx && op.operands == other.operands

/-- The operation that undoes this one, on the same operands. -/
def inverse [Neg α] (op : Operation α) : Operation α := ⟨op.gate.inverse, op.operands⟩

theorem inverse_inverse [Neg α] (hneg : ∀ x : α, -(-x) = x) (op : Operation α) :
    op.inverse.inverse = op := by
  rw [inverse, inverse, Gate.inverse_inverse hneg]

end Operation

/-! ### Errors -/

/-- Why a circuit or a state refuses its input. -/
inductive CircuitError where
  /-- A gate names a qubit that is not there. -/
  | unknownQubit (qubit : Qubit) (gate : String)
  /-- A gate is given a wrong number of qubits. The number is told by its lowest 32 bits. -/
  | operandCount (gate : String) (expected got : UInt32)
  /-- A gate names a qubit twice. -/
  | repeatedQubit (qubit : Qubit) (gate : String)
  /-- A list of amplitudes has a length that is no power of two. -/
  | dimension (length : Nat)
  deriving DecidableEq

def CircuitError.message : CircuitError → String
  | .unknownQubit q gate => s!"Qubit QubitId({q.bit}) not found in circuit (gate: {gate})"
  | .operandCount gate expected got => s!"Gate '{gate}' requires {expected} qubits, got {got}"
  | .repeatedQubit q gate => s!"Duplicate qubit QubitId({q.bit}) in operation (gate: {gate})"
  | .dimension length => s!"State vector of length {length} is not a power of two"

end StatePrep
