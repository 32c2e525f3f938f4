import StatePrep.Number.Amplitude
import StatePrep.Simplify
import StatePrep.Synthesis.Error

/-! # State preparation

The preparation of a state is found backwards. From the amplitudes wanted, the qubits of the
register are disentangled one after the other, the least significant first, each by a multiplexor
about the `z` axis and one about the `y` axis. One amplitude is left at the end, a phase. The
inverse of the tree built this way prepares the state from the one in which every qubit is zero, up
to the conjugate of that phase.

The angles come from pairs of amplitudes. A pair `(a, b)` is a magnitude and a common phase times
the state that a rotation about the `y` axis by `theta` and then one about the `z` axis by `phi`
make of the basis state zero (`BlochAngles`). Turning every pair of a list back takes the least
significant qubit to zero and leaves a list of half the length. -/

namespace StatePrep

/-! ### Disentangling a qubit -/

/-- Angles that relate a pair of amplitudes to the basis state zero, and what is left of the pair
there. -/
structure BlochAngles (α : Type) where
  /-- The angle about the `y` axis, which gives the ratio of the magnitudes. -/
  theta : α
  /-- The angle about the `z` axis, the phase of the second amplitude relative to the first. -/
  phi : α
  /-- The magnitude and the mean phase of the pair. -/
  remaining : Amplitude α

namespace BlochAngles

variable {α : Type} [Analytic α]

/-- The angles that lead from the basis state zero to a pair. A pair shorter than the tolerance
counts as zero and has none. -/
def ofPair (tolerance : α) (a b : Amplitude α) : BlochAngles α :=
  let length := Analytic.sqrt (a.normSq + b.normSq)
  if length < tolerance then ⟨0, 0, 0⟩
  else
    let half := Analytic.atan2 b.norm a.norm
    ⟨half + half, b.arg - a.arg, .polar length (Scalar.half (a.arg + b.arg))⟩

/-- The angles of the way back. -/
def opposite (p : BlochAngles α) : BlochAngles α := { p with theta := -p.theta, phi := -p.phi }

end BlochAngles

/-- The angles that lead from each pair of a list back to the basis state zero. An amplitude at the
end without a partner is left out. -/
def disentangle {α : Type} [Analytic α] (tolerance : α) : List (Amplitude α) → List (BlochAngles α)
  | a :: b :: more => (BlochAngles.ofPair tolerance a b).opposite :: disentangle tolerance more
  | _ => []

/-! ### Preparation -/

variable {α : Type}

/-- A tree that prepares a state, and what is known about it. -/
structure Preparation (α : Type) where
  tree : GateTree α
  /-- The phase by which the prepared state differs from the one wanted. -/
  phase : Amplitude α
  /-- The number of qubits that the tree acts on. -/
  width : Nat
  /-- What simplification did to the tree. -/
  stats : SimplifyStats

namespace Preparation

/-- Checks, in this order, that the amplitudes are those of at least one qubit, that the register
has the qubits they need, and that their weights add up to one. Gives the number of qubits. -/
def checkInput [Scalar α] (s : Settings α) (amps : List (Amplitude α)) (register : List Qubit) :
    Except (PrepError α) Nat :=
  let length := amps.length
  let width := length.log2
  if length < 2 || !isPowerOfTwo length then .error (.shape length)
  else if register.length ≠ width then .error (.registerSize length width register.length)
  else if !s.agree (Amplitude.weight amps) 1 then .error (.weight (Amplitude.weight amps))
  else .ok width

variable [Analytic α]

/-- The multiplexors that disentangle a number of qubits, from the one at place `level` of the
register on, and the amplitudes that are left. -/
def disentangler (tolerance : α) (register : List Qubit) : (count level : Nat) →
    List (Amplitude α) → Except MultiplexorError (List (GateTree α) × List (Amplitude α))
  | 0, _, amps => .ok ([], amps)
  | count + 1, level, amps => do
    let pairs := disentangle tolerance amps
    let phases ← Multiplexor.toTree ⟨register, .z⟩ level (pairs.map BlochAngles.phi)
    let magnitudes ← Multiplexor.toTree ⟨register, .y⟩ level (pairs.map BlochAngles.theta)
    let later ← disentangler tolerance register count (level + 1) (pairs.map BlochAngles.remaining)
    return (phases :: magnitudes :: later.1, later.2)

/-- The preparation that undoes a sequence of multiplexors, with the amplitudes that they leave. -/
def ofDisentangler (s : Settings α) (width : Nat) (multiplexors : List (GateTree α))
    (left : List (Amplitude α)) : Preparation α :=
  let root : Composite α := ⟨"initialize", multiplexors⟩
  let outcome := if s.simplify then root.simplify s else (root, .unchanged root.leafCount)
  { tree := outcome.1.toTree.inverse
    phase := (left.headD 1).conj
    width
    stats := outcome.2 }

end Preparation

/-- The tree that prepares the given amplitudes on a register, the least significant qubit first. -/
def prepare [Analytic α] (s : Settings α) (amps : List (Amplitude α)) (register : List Qubit) :
    Except (PrepError α) (Preparation α) := do
  s.check
  let width ← Preparation.checkInput s amps register
  let (multiplexors, left) ←
    (Preparation.disentangler s.tolerance register width 0 amps).mapError .multiplexor
  return Preparation.ofDisentangler s width multiplexors left

end StatePrep
