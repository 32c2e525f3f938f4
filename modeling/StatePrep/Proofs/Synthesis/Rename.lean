import StatePrep.Proofs.Simplify.MapLeaves
import StatePrep.Proofs.Synthesis.Outcome

/-! # Renaming the qubits of a register

A preparation knows a qubit only by its place in the register. Multiplexors take their operands from
it by place (`toTree_rename`), the angles and the amplitudes that are left do not depend on it, and
simplification asks of the operands of two operations only whether they are the same, which an
injective renaming keeps (`unseen_rename`). So the tree for a renamed register is the renamed tree,
and everything else that a preparation gives, an error included, is what it was (`prepare_map`). -/

namespace StatePrep

variable {α : Type}

/-! ### Renamed operations and trees -/

/-- The operation on renamed qubits. -/
def Operation.rename (f : Qubit → Qubit) (op : Operation α) : Operation α :=
  ⟨op.gate, op.operands.map f⟩

/-- The tree on renamed qubits: names, nesting, order and gates stay. -/
def GateTree.rename (f : Qubit → Qubit) (t : GateTree α) : GateTree α :=
  t.mapLeaves (Operation.rename f)

theorem Operation.inverse_rename [Neg α] (f : Qubit → Qubit) (op : Operation α) :
    (op.rename f).inverse = op.inverse.rename f := rfl

theorem GateTree.leaves_rename (f : Qubit → Qubit) (t : GateTree α) :
    (t.rename f).leaves = t.leaves.map (Operation.rename f) :=
  GateTree.leaves_mapLeaves _ t

theorem Operation.cancels_rename {f : Qubit → Qubit} (hf : f.Injective) (op next : Operation α) :
    (op.rename f).cancels (next.rename f) = op.cancels next := by
  have hsame : (op.operands.map f == next.operands.map f) = (op.operands == next.operands) := by
    rw [Bool.eq_iff_iff, beq_iff_eq, beq_iff_eq, (List.map_injective_iff.mpr hf).eq_iff]
  unfold Operation.cancels
  exact congrArg (_ && ·) hsame

/-- **An injective renaming is not seen by simplification.** -/
theorem unseen_rename [Scalar α] {f : Qubit → Qubit} (hf : f.Injective) (s : Settings α) :
    Unseen s (Operation.rename f) :=
  ⟨Operation.cancels_rename hf, fun _ => rfl⟩

/-! ### Multiplexors -/

namespace Multiplexor

variable [Scalar α]

/-- The multiplexor on renamed qubits. -/
def rename (f : Qubit → Qubit) (m : Multiplexor) : Multiplexor :=
  { m with register := m.register.map f }

theorem getElem?_register_rename (m : Multiplexor) (f : Qubit → Qubit) (place : ℕ) :
    (m.rename f).register[place]? = m.register[place]?.map f :=
  List.getElem?_map

theorem ofControls_rename (m : Multiplexor) (f : Qubit → Qubit) (bottom : ℕ) (controls : ℕ) :
    ∀ angles : List α, (m.rename f).ofControls bottom controls angles =
      (m.ofControls bottom controls angles).map (GateTree.rename f) := by
  induction controls with
  | zero =>
    intro angles
    rcases angles with _ | ⟨angle, _ | ⟨next, more⟩⟩
    · rfl
    · unfold ofControls
      rw [getElem?_register_rename]
      cases m.register[bottom]? <;> rfl
    · rfl
  | succ controls ih =>
    intro angles
    have hlength : (m.rename f).register.length = m.register.length := List.length_map f
    rw [ofControls, ofControls, ih, ih, hlength, getElem?_register_rename, getElem?_register_rename]
    -- both sides make the same checks in the same order, so a failure is the same on both
    by_cases hcount : angles.length ≠ 2 ^ (controls + 1)
    · rw [if_pos hcount, if_pos hcount]
      rfl
    rw [if_neg hcount, if_neg hcount]
    rcases m.register[bottom]? with _ | target
    · rfl
    rcases m.register[bottom + controls + 1]? with _ | control
    · rfl
    rcases m.ofControls bottom controls (halfSums angles) with e | low
    · rfl
    rcases m.ofControls bottom controls (halfDifferences angles) with e | high
    · rfl
    have hreverse : (high.rename f).reverse = high.reverse.rename f :=
      GateTree.reverse_mapLeaves _ high
    dsimp only [Option.map, Except.map, bind, Except.bind, pure, Except.pure]
    rw [hreverse]
    split <;> rfl

/-- **A multiplexor takes its operands by their place.** -/
theorem toTree_rename (m : Multiplexor) (f : Qubit → Qubit) (bottom : ℕ) (angles : List α) :
    (m.rename f).toTree bottom angles = (m.toTree bottom angles).map (GateTree.rename f) :=
  ofControls_rename m f bottom _ angles

end Multiplexor

/-! ### Preparations -/

variable [Analytic α]

namespace Preparation

/-- The preparation on renamed qubits. -/
def rename (f : Qubit → Qubit) (p : Preparation α) : Preparation α :=
  { p with tree := p.tree.rename f }

theorem disentangler_map (tolerance : α) (register : List Qubit) (f : Qubit → Qubit) (count : ℕ) :
    ∀ (level : ℕ) (amps : List (Amplitude α)),
      disentangler tolerance (register.map f) count level amps =
        (disentangler tolerance register count level amps).map fun r =>
          (r.1.map (GateTree.rename f), r.2) := by
  induction count with
  | zero => exact fun _ _ => rfl
  | succ count ih =>
    intro level amps
    have hz := Multiplexor.toTree_rename ⟨register, .z⟩ f level
      ((disentangle tolerance amps).map BlochAngles.phi)
    have hy := Multiplexor.toTree_rename ⟨register, .y⟩ f level
      ((disentangle tolerance amps).map BlochAngles.theta)
    unfold Multiplexor.rename at hz hy
    rw [disentangler, disentangler]
    dsimp only at hz hy ⊢
    rw [hz, hy, ih]
    rcases Multiplexor.toTree ⟨register, .z⟩ level _ with e | phases
    · rfl
    rcases Multiplexor.toTree ⟨register, .y⟩ level _ with e | magnitudes
    · rfl
    rcases disentangler tolerance register count (level + 1) _ with e | later
    · rfl
    rfl

theorem ofDisentangler_map {f : Qubit → Qubit} (hf : f.Injective) (s : Settings α) (width : ℕ)
    (trees : List (GateTree α)) (left : List (Amplitude α)) :
    ofDisentangler s width (trees.map (GateTree.rename f)) left =
      (ofDisentangler s width trees left).rename f := by
  have hroot : (⟨"initialize", trees.map (GateTree.rename f)⟩ : Composite α) =
      (⟨"initialize", trees⟩ : Composite α).mapLeaves (Operation.rename f) :=
    congrArg (Composite.mk _) (GateTree.mapLeavesAll_eq_map _ trees).symm
  have hinverse (c : Composite α) : (c.mapLeaves (Operation.rename f)).toTree.inverse =
      c.toTree.inverse.rename f := by
    rw [Composite.toTree_mapLeaves]
    exact GateTree.inverse_mapLeaves (Operation.inverse_rename f) c.toTree
  unfold ofDisentangler rename
  dsimp only
  rw [hroot, simplify_mapLeaves (unseen_rename hf s), Composite.leafCount_mapLeaves]
  split <;> rw [hinverse]

end Preparation

/-- **A preparation depends on its register by place only.** On renamed qubits it fails with the
same error, or gives the same phase, width and numbers and the tree with the operands of every leaf
renamed. -/
theorem prepare_map {f : Qubit → Qubit} (hf : f.Injective) (s : Settings α)
    (amps : List (Amplitude α)) (register : List Qubit) :
    prepare s amps (register.map f) =
      (prepare s amps register).map (Preparation.rename f) := by
  -- the register is checked for its length only
  have hinput : Preparation.checkInput s amps (register.map f) =
      Preparation.checkInput s amps register := by
    unfold Preparation.checkInput
    rw [List.length_map]
  rw [prepare, prepare, hinput]
  rcases s.check with e | _
  · rfl
  rcases Preparation.checkInput s amps register with e | width
  · rfl
  dsimp only [bind, Except.bind]
  rw [Preparation.disentangler_map]
  rcases Preparation.disentangler s.tolerance register width 0 amps with e | ⟨trees, left⟩
  · rfl
  exact congrArg Except.ok (Preparation.ofDisentangler_map hf s width trees left)

/-- A state of two qubits is prepared on the two qubits next to them by the same gates. -/
theorem prepare_map_next :
    let next : Qubit → Qubit := fun q => ⟨q.number + 1⟩
    let amps := List.replicate 4 (⟨1 / 2, 0⟩ : Amplitude ℝ)
    next.Injective ∧ ∃ p, prepare ⟨1 / 8, true⟩ amps [⟨3⟩, ⟨1⟩] = .ok p ∧
      prepare ⟨1 / 8, true⟩ amps [⟨4⟩, ⟨2⟩] = .ok (p.rename next) ∧
      (p.rename next).tree.leaves = p.tree.leaves.map (Operation.rename next) := by
  intro next amps
  have hnext : next.Injective := by
    intro q r h
    have hnumber : q.number + 1 = r.number + 1 := congrArg Qubit.number h
    exact congrArg Qubit.mk ((UInt32.add_left_inj 1).mp hnumber)
  obtain ⟨p, hp⟩ := exists_prepare_iff.mpr (accepted_uniform true ⟨3⟩ ⟨1⟩)
  have hmap := prepare_map hnext ⟨1 / 8, true⟩ amps [⟨3⟩, ⟨1⟩]
  rw [hp] at hmap
  exact ⟨hnext, p, hp, hmap, GateTree.leaves_rename next p.tree⟩

end StatePrep
