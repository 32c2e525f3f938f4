import StatePrep.Gate.Matrix
import StatePrep.State.Basic
import StatePrep.Tree.Cursor

/-! # Simulation

Gates are applied in place, by one scan over the indices of the basis states. A gate on one qubit
meets each pair of indices that differ only in the bit of the qubit at the smaller of the two, and
replaces both amplitudes. The controlled flip exchanges the two amplitudes of a pair whose control
bit is set.

An operation is refused if it has a wrong number of operands or names a qubit outside the state. A
sequence stops at the first operation refused; those before it have been applied. -/

namespace StatePrep

namespace QuantumState

variable {α : Type} {n : Nat}

/-! ### One gate -/

/-- Setting a bit keeps an index in range. -/
theorem setBit_lt {i q : Nat} (hi : i < 2 ^ n) (hq : q < n) : i ||| 2 ^ q < 2 ^ n :=
  Nat.or_lt_two_pow hi (Nat.pow_lt_pow_right (by omega) hq)

/-- Applies a matrix to every pair of amplitudes that differ only in the value of qubit `q`. -/
def applyMatrix [Scalar α] (m : Matrix2 α) (q : Fin n) (v : QuantumState α n) : QuantumState α n :=
  ⟨Nat.fold (2 ^ n) (fun i hi amps =>
    if i.testBit q then amps
    else
      have hj := setBit_lt hi q.isLt
      let images := m.apply amps[i] amps[i ||| 2 ^ q.val]
      (amps.set i images.1).set (i ||| 2 ^ q.val) images.2) v.amps⟩

/-- Exchanges the amplitudes of every pair that differ only in the value of qubit `target` and have
qubit `control` set. If both are the same qubit there is no such pair. -/
def applyCx (control target : Fin n) (v : QuantumState α n) : QuantumState α n :=
  ⟨Nat.fold (2 ^ n) (fun i hi amps =>
    if i.testBit control && !i.testBit target then
      have hj := setBit_lt hi target.isLt
      amps.swap i (i ||| 2 ^ target.val)
    else amps) v.amps⟩

/-- The bit of a qubit in a state of `n` qubits. -/
def locate (n : Nat) (gate : String) (q : Qubit) : Except CircuitError (Fin n) :=
  if h : q.bit < n then .ok ⟨q.bit, h⟩ else .error (.unknownQubit q gate)

variable [Analytic α]

/-- Applies an operation. The number of operands is checked before any of them. -/
def apply (op : Operation α) (v : QuantumState α n) : Except CircuitError (QuantumState α n) :=
  match op.gate.matrix?, op.operands with
  | some m, [q] => do
    let q ← locate n op.name q
    return v.applyMatrix m q
  | none, [control, target] => do
    let control ← locate n op.name control
    let target ← locate n op.name target
    return v.applyCx control target
  | _, operands =>
    .error (.operandCount op.name op.gate.arity.toUInt32 operands.length.toUInt32)

/-! ### Sequences -/

/-- Applies operations in order: the state reached, and the error that stopped the sequence, if
any. -/
def applyAll : List (Operation α) → QuantumState α n → QuantumState α n × Option CircuitError
  | [], v => (v, none)
  | op :: ops, v =>
    match v.apply op with
    | .ok w => applyAll ops w
    | .error e => (v, some e)

/-- Applies the leaves of a tree in order. -/
def applyTree (t : GateTree α) (v : QuantumState α n) : QuantumState α n × Option CircuitError :=
  applyAll t.leaves v

end QuantumState

end StatePrep
