import StatePrep.Gate.Operation
import StatePrep.Stored.Document

/-! # Stored gates

Qubits, gates, axes and operations as documents. A qubit is kept as its bare number where it is an
operand, and as a record where it stands for itself. A gate or an axis is kept under its variant
name; a variant without angles may also be read from a record in which its name holds nothing.

These spellings are the representation assumed of the serialization library, not code of the
program. -/

namespace StatePrep

variable {α : Type}

namespace Qubit

/-- A qubit as an operand, kept as its bare number. -/
def toDocument (q : Qubit) : Document α := .ofCount q.bit

/-- Reads a qubit from its bare number, which has 32 bits. -/
def ofDocument? (d : Document α) : Option Qubit :=
  (d.natBelow? UInt32.size).map fun n => ⟨UInt32.ofNat n⟩

/-- A qubit of its own, kept as a record of its number. -/
def toRecord (q : Qubit) : Document α := .record [("id", q.toDocument)]

/-- Reads a qubit from a record of its number. -/
def ofRecord? (d : Document α) : Option Qubit :=
  match d.parts? ["id"] with
  | some [number] => ofDocument? number
  | _ => none

end Qubit

namespace Document

/-- A value that stands for a variant without content, which may be absent or nothing. -/
def unit? {β : Type} (value : β) : Option (Document α) → Option β
  | none | some .null => some value
  | _ => none

end Document

namespace Axis

/-- An axis, kept as its name. -/
def toDocument : Axis → Document α
  | .x => .text "X"
  | .y => .text "Y"
  | .z => .text "Z"

def ofDocument? (d : Document α) : Option Axis :=
  match d.variant? with
  | some ("X", content) => Document.unit? .x content
  | some ("Y", content) => Document.unit? .y content
  | some ("Z", content) => Document.unit? .z content
  | _ => none

end Axis

namespace Gate

variable [Scalar α]

/-- A gate, kept as its variant name and its angles. -/
def toDocument : Gate α → Document α
  | .x => .text "X"
  | .rx theta => .record [("Rx", .ofScalar theta)]
  | .ry theta => .record [("Ry", .ofScalar theta)]
  | .rz theta => .record [("Rz", .ofScalar theta)]
  | .u theta phi lambda =>
    .record [("U", .list [.ofScalar theta, .ofScalar phi, .ofScalar lambda])]
  | .cx => .text "CX"

def ofDocument? (d : Document α) : Option (Gate α) :=
  match d.variant? with
  | some ("X", content) => Document.unit? .x content
  | some ("Rx", some theta) => theta.scalar?.map .rx
  | some ("Ry", some theta) => theta.scalar?.map .ry
  | some ("Rz", some theta) => theta.scalar?.map .rz
  | some ("U", some (.list [theta, phi, lambda])) =>
    return .u (← theta.scalar?) (← phi.scalar?) (← lambda.scalar?)
  | some ("CX", content) => Document.unit? .cx content
  | _ => none

end Gate

namespace Operation

variable [Scalar α]

/-- An operation, kept as a record of the gate and the qubits. -/
def toDocument (op : Operation α) : Document α :=
  .record [("gate", op.gate.toDocument), ("qubits", .list (op.operands.map Qubit.toDocument))]

def ofDocument? (d : Document α) : Option (Operation α) :=
  match d.parts? ["gate", "qubits"] with
  | some [gate, qubits] => return ⟨← Gate.ofDocument? gate, ← qubits.listOf? Qubit.ofDocument?⟩
  | _ => none

end Operation

end StatePrep
