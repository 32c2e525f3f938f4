import StatePrep.State.Apply
import StatePrep.Tree.Cursor

/-! # Circuits

A circuit owns qubits and keeps the gate trees appended to it. A tree is accepted if every leaf has
the operands its gate needs, all of them owned by the circuit and none named twice; otherwise the
circuit stays as it was. -/

namespace StatePrep

/-- A named register with the gate trees to apply to it. -/
structure Circuit (α : Type) where
  name : String
  /-- The qubits, in the order they were added. -/
  qubits : List Qubit
  /-- The gate trees, in the order of application. -/
  trees : List (GateTree α)
  /-- The number that the next qubit will get. -/
  nextNumber : UInt32

namespace Circuit

variable {α : Type}

/-! ### Building -/

def empty (name : String) : Circuit α := ⟨name, [], [], 0⟩

/-- A new qubit, and the circuit with that qubit added. -/
def addQubit (c : Circuit α) : Qubit × Circuit α :=
  let q : Qubit := ⟨c.nextNumber⟩
  (q, { c with qubits := c.qubits ++ [q], nextNumber := c.nextNumber + 1 })

/-- A circuit of new qubits. Their count is a word of 32 bits, as their numbers are: of a larger one
the lowest 32 bits are meant. -/
def withQubits (name : String) (count : Nat) : Circuit α :=
  Nat.repeat (fun c => c.addQubit.2) count.toUInt32.toNat (empty name)

/-- Checks qubits one by one: each is owned by the circuit and not among those seen before it. -/
def checkQubitsFrom (c : Circuit α) (gate : String) (seen : List Qubit) :
    List Qubit → Except CircuitError Unit
  | [] => .ok ()
  | q :: qs =>
    if q ∉ c.qubits then .error (.unknownQubit q gate)
    else if q ∈ seen then .error (.repeatedQubit q gate)
    else c.checkQubitsFrom gate (q :: seen) qs

/-- Checks that qubits are owned by the circuit and distinct. -/
def checkQubits (c : Circuit α) (qs : List Qubit) (gate : String) : Except CircuitError Unit :=
  c.checkQubitsFrom gate [] qs

/-- Checks the number of operands of an operation, then the operands. -/
def checkOperation (c : Circuit α) (op : Operation α) : Except CircuitError Unit :=
  if op.operands.length = op.gate.arity then c.checkQubits op.operands op.name
  else .error (.operandCount op.name op.gate.arity.toUInt32 op.operands.length.toUInt32)

/-- The circuit with a tree appended, if every leaf passes. -/
def append (c : Circuit α) (t : GateTree α) : Except CircuitError (Circuit α) := do
  t.leaves.forM c.checkOperation
  return { c with trees := c.trees ++ [t] }

def appendGate (c : Circuit α) (gate : Gate α) (operands : List Qubit) :
    Except CircuitError (Circuit α) :=
  c.append (.leaf ⟨gate, operands⟩)

/-! ### Reading -/

def operations (c : Circuit α) : List (Operation α) := c.trees.flatMap GateTree.leaves

def operationCount (c : Circuit α) : Nat := GateTree.leafCountAll c.trees

/-- The least number of qubits of a state that has all qubits of the circuit. -/
def width (c : Circuit α) : Nat := c.qubits.foldl (fun w q => max w (q.bit + 1)) 0

/-! ### Simulation -/

/-- The state after all gates, from the one in which every qubit is zero. -/
def simulate [Analytic α] (c : Circuit α) : Except CircuitError (QuantumState α c.width) :=
  c.trees.foldlM (fun v t =>
    match v.applyTree t with
    | (w, none) => .ok w
    | (_, some e) => .error e) (.zero c.width)

end Circuit

end StatePrep
