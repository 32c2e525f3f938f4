import StatePrep.Circuit.Basic
import StatePrep.Synthesis.Preparation

/-! # Preparation on a circuit

The tree of a preparation or of a global phase, appended to a circuit. On an error the circuit
stays as it was.

A global phase is a tree of two gates on one qubit: the general gate with angles `π`, `φ` and
`π + φ` is the flip times the phase `φ`, and a flip after it leaves the phase alone. -/

namespace StatePrep

/-- The tree that multiplies every amplitude by the phase that the one parameter gives. It acts on
the first of the qubits. -/
def phaseTree {α : Type} [Analytic α] (s : Settings α) (parameters : List (Amplitude α))
    (qubits : List Qubit) : Except (PrepError α) (GateTree α) := do
  s.check
  match qubits, parameters with
  | [], _ => .error .noQubit
  | target :: _, [phase] =>
    if s.agree phase.norm 1 then
      let phi := phase.arg
      return .composite "global_phase"
        [.leaf (.single (.u Analytic.pi phi (Analytic.pi + phi)) target), .leaf (.single .x target)]
    else .error (.phaseLength phase.norm)
  | _ :: _, parameters => .error (.phaseCount parameters.length)

namespace Circuit

variable {α : Type} [Analytic α]

/-- Appends the tree that prepares amplitudes on qubits of the circuit. Gives the phase by which the
prepared state differs from the one wanted, and the circuit. -/
def prepare (c : Circuit α) (s : Settings α) (amps : List (Amplitude α)) (register : List Qubit) :
    Except (PrepError α) (Amplitude α × Circuit α) := do
  (c.checkQubits register "initialize").mapError .circuit
  let preparation ← StatePrep.prepare s amps register
  let c ← (c.append preparation.tree).mapError .circuit
  return (preparation.phase, c)

/-- Appends the tree that multiplies every amplitude by a phase, on the first qubit of the circuit
and with standard settings. -/
def shiftPhase (c : Circuit α) (phase : Amplitude α) : Except (PrepError α) (Circuit α) := do
  let tree ← phaseTree .standard [phase] (c.qubits.take 1)
  (c.append tree).mapError .circuit

end Circuit

end StatePrep
