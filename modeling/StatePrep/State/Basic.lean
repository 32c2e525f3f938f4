import StatePrep.Gate.Operation
import StatePrep.Number.Amplitude

/-! # States

A state of `n` qubits is a vector of `2 ^ n` amplitudes, one for every basis state. Bit `k` of the
index of a basis state is the value of qubit `k`. -/

namespace StatePrep

/-- The amplitudes of a state of `n` qubits, by the index of the basis state. -/
structure QuantumState (α : Type) (n : Nat) where
  amps : Vector (Amplitude α) (2 ^ n)

namespace QuantumState

variable {α : Type}

/-- The amplitudes as a list, by the index of the basis state. -/
def toList {n : Nat} (v : QuantumState α n) : List (Amplitude α) := v.amps.toList

/-- The number of qubits. -/
def numQubits {n : Nat} (_ : QuantumState α n) : Nat := n

/-- The basis state in which every qubit is zero. -/
def zero [Scalar α] (n : Nat) : QuantumState α n :=
  ⟨(Vector.replicate (2 ^ n) 0).set 0 1 (Nat.two_pow_pos n)⟩

/-- A list of amplitudes as a state, if its length is a power of two. -/
def ofList (amps : List (Amplitude α)) : Except CircuitError (Σ n, QuantumState α n) :=
  if h : isPowerOfTwo amps.length = true then
    .ok ⟨amps.length.log2, ⟨⟨amps.toArray, by simpa [isPowerOfTwo] using h⟩⟩⟩
  else .error (.dimension amps.length)

/-! ### Comparison -/

/-- The squared magnitude of the overlap of two states. States of different sizes are compared on
the basis states that both have. -/
def fidelity [Scalar α] {m n : Nat} (v : QuantumState α m) (w : QuantumState α n) : α :=
  (Amplitude.total ((v.toList.zip w.toList).map fun p => p.1.conj * p.2)).normSq

/-- Whether the first state is, amplitude by amplitude, closer than the tolerance to the second one
times a phase. -/
def isNearScaled [Analytic α] {m n : Nat} (v : QuantumState α m) (w : QuantumState α n)
    (phase : Amplitude α) (tolerance : α) : Bool :=
  m == n && (v.toList.zip w.toList).all fun p => (p.1 - phase * p.2).norm < tolerance

end QuantumState

end StatePrep
