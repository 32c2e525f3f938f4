import StatePrep.Circuit.Prepare
import StatePrep.Proofs.Circuit.Operands
import StatePrep.Proofs.Synthesis.Outcome

/-! # Methods of a circuit

A circuit as an object: a method reads the circuit it is called on, changes it in place and may fail
on the way, and what it has changed by then stays changed (`Circuit.Method`). The methods here check
operand after operand and leaf after leaf, and write at the end.

So the functions that give a new circuit or an error say everything about them: on an error the
circuit is as it was (`call_append`, `call_prepare`, `call_shiftPhase`). `prepare_atomic` adds which
errors a preparation can end in; that the circuit refuses the prepared tree is not among them. -/

namespace StatePrep

namespace Circuit

variable {α ε ε' β γ : Type}

/-- A computation that may read and change a circuit, and may fail. -/
abbrev Method (α ε β : Type) := ExceptT ε (StateM (Circuit α)) β

namespace Method

/-- The outcome of a call, and the circuit after it. -/
def call (m : Method α ε β) (c : Circuit α) : Except ε β × Circuit α := m.run.run c

/-- Asks the circuit for a value or an error. -/
def ask (f : Circuit α → Except ε β) : Method α ε β := do liftM (f (← get))

/-! ### The methods -/

/-- Takes the next number, then adds the qubit. -/
def addQubit : Method α ε Qubit := do
  let q : Qubit := ⟨(← get).nextNumber⟩
  modify fun c => { c with nextNumber := c.nextNumber + 1 }
  modify fun c => { c with qubits := c.qubits ++ [q] }
  return q

/-- Checks the leaves one by one, then adds the tree. -/
def append (t : GateTree α) : Method α CircuitError Unit := do
  t.leaves.forM fun op => ask fun c => c.checkOperation op
  modify fun c => { c with trees := c.trees ++ [t] }

variable [Analytic α]

/-- Checks the operands, prepares the amplitudes on them and appends the tree. -/
def prepare (s : Settings α) (amps : List (Amplitude α)) (register : List Qubit) :
    Method α (PrepError α) (Amplitude α) := do
  ask fun c => (c.checkQubits register "initialize").mapError .circuit
  let preparation ← liftM (StatePrep.prepare s amps register)
  ExceptT.adapt .circuit (append preparation.tree)
  return preparation.phase

/-- Builds the tree of the phase on the first qubit and appends it. -/
def shiftPhase (phase : Amplitude α) : Method α (PrepError α) Unit := do
  let first ← ask fun c => .ok (c.qubits.take 1)
  let tree ← liftM (phaseTree .standard [phase] first)
  ExceptT.adapt .circuit (append tree)

/-! ### Calls step by step -/

variable {c : Circuit α}

omit [Analytic α]

theorem call_bind (m : Method α ε β) (f : β → Method α ε γ) : call (m >>= f) c =
    match call m c with
    | (.ok b, d) => call (f b) d
    | (.error e, d) => (.error e, d) := by
  unfold call ExceptT.run StateT.run
  simp only [bind, ExceptT.bind, ExceptT.mk, StateT.bind, ExceptT.bindCont]
  cases m c with
  | mk result next => cases result <;> rfl

theorem call_ask (f : Circuit α → Except ε β) : call (ask f) c = (f c, c) := rfl

theorem call_lift (x : Except ε β) : call (liftM x : Method α ε β) c = (x, c) := rfl

theorem call_adapt (f : ε → ε') (m : Method α ε β) :
    call (ExceptT.adapt f m : Method α ε' β) c = ((call m c).1.mapError f, (call m c).2) := rfl

theorem call_addQubit : call (addQubit : Method α ε Qubit) c = (.ok c.addQubit.1, c.addQubit.2) :=
  rfl

theorem call_forM_ask (f : β → Circuit α → Except ε PUnit) (l : List β) :
    call (l.forM fun b => ask (f b)) c = (l.forM fun b => f b c, c) := by
  induction l with
  | nil => rfl
  | cons b l ih =>
    rw [List.forM_eq_forM, List.forM_eq_forM] at ih ⊢
    rw [List.forM_cons, List.forM_cons, call_bind, call_ask]
    cases f b c with
    | error e => rfl
    | ok => exact ih

/-! ### Calls that fail change nothing -/

/-- An outcome with the circuit that comes with it, or with the one that there was. -/
def settle (c : Circuit α) : Except ε (β × Circuit α) → Except ε β × Circuit α
  | .ok (b, d) => (.ok b, d)
  | .error e => (.error e, c)

theorem settle_eq_error_iff {x : Except ε (β × Circuit α)} {d : Circuit α} {e : ε} :
    settle c x = (.error e, d) ↔ x = .error e ∧ d = c := by
  cases x with
  | error e' => simp [settle, eq_comm]
  | ok p => simp [settle]

/-- **Appending** gives the new circuit, or an error and the circuit as it was. -/
theorem call_append (t : GateTree α) :
    call (append t) c = settle c ((c.append t).map fun d => ((), d)) := by
  rw [append, Circuit.append, call_bind, call_forM_ask]
  cases t.leaves.forM fun op => c.checkOperation op with
  | error e => rfl
  | ok => rfl

/-- A tree is refused if a leaf is not well formed, and then the circuit is as it was. -/
theorem exists_call_append_eq_error_iff {t : GateTree α} {d : Circuit α} :
    (∃ e, call (append t) c = (.error e, d)) ↔
      (∃ op ∈ t.leaves, ¬ op.WellFormed c.qubits) ∧ d = c := by
  have haccept : (∃ d, c.append t = .ok d) ↔ ∀ op ∈ t.leaves, op.WellFormed c.qubits := by
    simp only [append_eq_ok_iff, GateTree.leaves_eq_flatten]
    exact ⟨fun ⟨_, h, _⟩ => h, fun h => ⟨_, h, rfl⟩⟩
  have hrefuse : (∃ e, c.append t = .error e) ↔ ∃ op ∈ t.leaves, ¬ op.WellFormed c.qubits := by
    rw [← not_iff_not]
    push Not
    rw [← haccept]
    cases c.append t <;> simp
  rw [← hrefuse, call_append, ← exists_and_right]
  refine exists_congr fun e => ?_
  rw [settle_eq_error_iff]
  cases c.append t <;> simp [Except.map]

variable [Analytic α]

theorem call_prepare (s : Settings α) (amps : List (Amplitude α)) (register : List Qubit) :
    call (prepare s amps register) c = settle c (c.prepare s amps register) := by
  rw [prepare, Circuit.prepare, call_bind, call_ask]
  cases c.checkQubits register "initialize" with
  | error e => rfl
  | ok =>
    dsimp only [Except.mapError]
    rw [call_bind, call_lift]
    cases StatePrep.prepare s amps register with
    | error e => rfl
    | ok p =>
      show _ = settle c ((c.append p.tree).mapError PrepError.circuit >>= fun d => .ok (p.phase, d))
      dsimp only
      rw [call_bind, call_adapt, call_append]
      cases c.append p.tree with
      | error e => rfl
      | ok d => rfl

theorem call_shiftPhase (phase : Amplitude α) :
    call (shiftPhase phase) c = settle c ((c.shiftPhase phase).map fun d => ((), d)) := by
  rw [shiftPhase, Circuit.shiftPhase, call_bind, call_ask]
  dsimp only
  rw [call_bind, call_lift]
  cases phaseTree .standard [phase] (c.qubits.take 1) with
  | error e => rfl
  | ok tree =>
    show _ = settle c (((c.append tree).mapError PrepError.circuit).map fun d => ((), d))
    dsimp only
    rw [call_adapt, call_append]
    cases c.append tree with
    | error e => rfl
    | ok d => rfl

/-! ### Preparation on a circuit -/

/-- **A preparation on a circuit is atomic, and its tree is never refused.** If the operands are not
distinct qubits of the circuit, it ends in the error of their check, and otherwise, if the
amplitudes cannot be prepared, in the error that tells why; the circuit is as it was. If they can
be, every leaf of the tree is well formed over the circuit, which accepts it as one more tree named
`initialize`. -/
theorem prepare_atomic (c : Circuit α) (s : Settings α) (amps : List (Amplitude α))
    (register : List Qubit) :
    (¬ ((∀ q ∈ register, q ∈ c.qubits) ∧ register.Nodup) →
      ∃ e, c.checkQubits register "initialize" = .error e ∧
        call (prepare s amps register) c = (.error (.circuit e), c)) ∧
    ((∀ q ∈ register, q ∈ c.qubits) ∧ register.Nodup →
      (∀ e, StatePrep.prepare s amps register = .error e →
        call (prepare s amps register) c = (.error e, c)) ∧
      ∀ p, StatePrep.prepare s amps register = .ok p →
        (∃ parts, p.tree = .composite "initialize" parts) ∧
        (∀ op ∈ p.tree.flatten, op.WellFormed c.qubits) ∧
        c.append p.tree = .ok { c with trees := c.trees ++ [p.tree] } ∧
        call (prepare s amps register) c =
          (.ok p.phase, { c with trees := c.trees ++ [p.tree] })) := by
  constructor
  · intro hoperands
    cases hcheck : c.checkQubits register "initialize" with
    | ok => exact absurd (checkQubits_eq_ok_iff.mp hcheck) hoperands
    | error e =>
      refine ⟨e, rfl, ?_⟩
      rw [call_prepare, Circuit.prepare, hcheck]
      rfl
  · intro hoperands
    have hcheck : c.checkQubits register "initialize" = .ok () :=
      checkQubits_eq_ok_iff.mpr hoperands
    refine ⟨fun e he => ?_, fun p hp => ?_⟩
    · rw [call_prepare, Circuit.prepare, hcheck, he]
      rfl
    · have hleaves : ∀ op ∈ p.tree.flatten, op.WellFormed c.qubits := fun op hop =>
        (wellFormed_of_prepare hp hoperands.2 op hop).mono hoperands.1
      have happend := append_eq_ok_iff.mpr ⟨hleaves, rfl⟩
      refine ⟨exists_tree_eq_composite hp, hleaves, happend, ?_⟩
      rw [call_prepare, Circuit.prepare, hcheck, hp]
      show settle c ((c.append p.tree).mapError PrepError.circuit >>= fun d => .ok (p.phase, d)) = _
      rw [happend]
      rfl

/-- On a circuit of two qubits: a register that names one of them twice is refused, and on both of
them a preparation is appended. -/
theorem prepare_atomic_pair :
    let amps : List (Amplitude ℝ) := List.replicate 4 ⟨1 / 2, 0⟩
    (∃ e, call (prepare ⟨1 / 8, true⟩ amps [⟨1⟩, ⟨1⟩]) (withQubits "pair" 2) =
      (.error (.circuit e), withQubits "pair" 2)) ∧
    ∃ p, StatePrep.prepare ⟨1 / 8, true⟩ amps [⟨1⟩, ⟨0⟩] = .ok p ∧
      call (prepare ⟨1 / 8, true⟩ amps [⟨1⟩, ⟨0⟩]) (withQubits "pair" 2) =
        (.ok p.phase, ⟨"pair", [⟨0⟩, ⟨1⟩], [p.tree], 2⟩) := by
  intro amps
  have htwice : ¬ ((∀ q ∈ [⟨1⟩, ⟨1⟩], q ∈ (withQubits "pair" 2 : Circuit ℝ).qubits) ∧
      [(⟨1⟩ : Qubit), ⟨1⟩].Nodup) := fun h => absurd h.2 (by decide)
  have hboth : (∀ q ∈ [⟨1⟩, ⟨0⟩], q ∈ (withQubits "pair" 2 : Circuit ℝ).qubits) ∧
      [(⟨1⟩ : Qubit), ⟨0⟩].Nodup := by decide
  constructor
  · obtain ⟨e, -, he⟩ := (prepare_atomic _ ⟨1 / 8, true⟩ amps _).1 htwice
    exact ⟨e, he⟩
  · obtain ⟨p, hp⟩ := exists_prepare_iff.mpr (accepted_uniform true ⟨1⟩ ⟨0⟩)
    obtain ⟨-, -, -, hcall⟩ := ((prepare_atomic _ _ _ _).2 hboth).2 p hp
    exact ⟨p, hp, hcall⟩

end Method

end Circuit

end StatePrep
