import StatePrep.Gate.Operation
import StatePrep.Settings
import StatePrep.Synthesis.Multiplexor

/-! # Errors of preparation

What can be wrong with the input of a preparation or of a global phase. -/

namespace StatePrep

/-- Why a state or a phase cannot be prepared. -/
inductive PrepError (α : Type) where
  /-- The number of amplitudes is no power of two, or is one. -/
  | shape (length : Nat)
  /-- The register has not one qubit for each bit of an index. -/
  | registerSize (amplitudes expected got : Nat)
  /-- The weights of the amplitudes do not add up to one. -/
  | weight (total : α)
  /-- A global phase is given by one number, and a different count was given. -/
  | phaseCount (got : Nat)
  /-- The number for a global phase has not magnitude one. -/
  | phaseLength (magnitude : α)
  /-- A global phase needs a qubit to be applied to. -/
  | noQubit
  /-- The tolerance is not positive, or not finite. -/
  | tolerance (value : α)
  /-- The circuit refused the operands or the prepared tree. -/
  | circuit (error : CircuitError)
  /-- A multiplexor could not be built. -/
  | multiplexor (error : MultiplexorError)

namespace PrepError

/-- The message for the user, with numbers written by `write`. -/
def message {α : Type} (write : α → String) : PrepError α → String
  | .shape length => s!"Desired vector of length {length} is not a positive power of 2"
  | .registerSize amplitudes expected got =>
    s!"Number of complex amplitudes ({amplitudes}) does not correspond to the number of qubits: " ++
      s!"expected {expected}, got {got}"
  | .weight total => "Sum of amplitudes-squared does not equal one (got " ++ write total ++ ")"
  | .phaseCount got => s!"Global phase takes exactly one parameter, got {got}"
  | .phaseLength magnitude =>
    "Phase factor is not of unit length (magnitude " ++ write magnitude ++ ")"
  | .noQubit => "Global phase needs at least one qubit"
  | .tolerance value => "Tolerance must be positive and finite, got " ++ write value
  | .circuit error => "Circuit IR error: " ++ error.message
  | .multiplexor error => error.message?.getD ""

end PrepError

def Settings.check {α : Type} [Scalar α] (s : Settings α) : Except (PrepError α) Unit :=
  if s.isUsable then .ok () else .error (.tolerance s.tolerance)

end StatePrep
