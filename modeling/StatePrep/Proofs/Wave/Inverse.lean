import StatePrep.Proofs.Wave.Action

/-! # Inverses

The matrix of the inverse of a gate on one qubit is the adjoint of its matrix, and all these
matrices are unitary (`matrix?_inverse`). So an operation and its inverse undo each other
(`act_inverse_mul_act`), and so do a sequence and its inverses in the turned order
(`actAll_inverse_mul_actAll`), and a tree and its inverse (`applyTree_inverse_iff`). -/

namespace StatePrep

open Complex ComplexConjugate

/-! ### Adjoint matrices -/

namespace Matrix2

/-- The rows as columns, with conjugate entries. -/
noncomputable def adjoint (m : Matrix2 ℝ) : Matrix2 ℝ := ⟨m.a.conj, m.c.conj, m.b.conj, m.d.conj⟩

theorem stay_adjoint (m : Matrix2 ℝ) (b : Bool) : m.adjoint.stay b = conj (m.stay b) := by
  cases b <;> rfl

theorem cross_adjoint (m : Matrix2 ℝ) (b : Bool) : m.adjoint.cross b = conj (m.cross (!b)) := by
  cases b <;> rfl

theorem ext_entries {m k : Matrix2 ℝ} (hstay : ∀ b, m.stay b = k.stay b)
    (hcross : ∀ b, m.cross b = k.cross b) : m = k := by
  obtain ⟨a, b, c, d⟩ := m
  obtain ⟨a', b', c', d'⟩ := k
  rw [mk.injEq]
  exact ⟨Amplitude.toComplex_injective (hstay false), Amplitude.toComplex_injective (hcross false),
    Amplitude.toComplex_injective (hcross true), Amplitude.toComplex_injective (hstay true)⟩

/-- The columns are orthogonal and of length one. -/
structure Unitary (m : Matrix2 ℝ) : Prop where
  length : ∀ b, conj (m.stay b) * m.stay b + conj (m.cross (!b)) * m.cross (!b) = 1
  orthogonal : ∀ b, conj (m.stay b) * m.cross b + conj (m.cross (!b)) * m.stay (!b) = 0

theorem Unitary.adjoint_mul {m : Matrix2 ℝ} (h : m.Unitary) (t : ℕ) :
    m.adjoint.onQubit t * m.onQubit t = 1 := by
  unfold onQubit
  rw [mix_mul_mix, ← mix_one_zero t]
  congr 1 <;> funext i <;> rw [stay_adjoint, cross_adjoint, testBit_partner_self]
  · exact h.length _
  · exact h.orthogonal _

end Matrix2

theorem stay_flip (b : Bool) : (Matrix2.flip : Matrix2 ℝ).stay b = 0 := by cases b <;> rfl

theorem cross_flip (b : Bool) : (Matrix2.flip : Matrix2 ℝ).cross b = 1 := by cases b <;> rfl

theorem stay_u (theta phi lambda : ℝ) (b : Bool) : (Matrix2.u theta phi lambda).stay b =
    (Real.cos (theta / 2) : ℝ) * exp ((if b then phi + lambda else 0 : ℝ) * I) := by
  cases b
  · simp only [Matrix2.stay, Matrix2.u, half_real, Bool.false_eq_true, if_false, ofReal_zero,
      zero_mul, Complex.exp_zero, mul_one]
    rfl
  · simp only [Matrix2.stay, Matrix2.u, half_real, if_true, Amplitude.toComplex_polar]
    rfl

theorem cross_u (theta phi lambda : ℝ) (b : Bool) : (Matrix2.u theta phi lambda).cross b =
    (if b then 1 else -1) *
      ((Real.sin (theta / 2) : ℝ) * exp ((if b then phi else lambda : ℝ) * I)) := by
  cases b
  · simp only [Matrix2.cross, Matrix2.u, half_real, Bool.false_eq_true, if_false,
      Amplitude.toComplex_neg, Amplitude.toComplex_polar, neg_one_mul]
    rfl
  · simp only [Matrix2.cross, Matrix2.u, half_real, if_true, Amplitude.toComplex_polar, one_mul]
    rfl

theorem conj_exp_mul_I (x : ℝ) : conj (exp (x * I)) = exp ((-x : ℝ) * I) := by
  rw [← Complex.exp_conj, map_mul, conj_ofReal, conj_I, ofReal_neg, neg_mul, mul_neg]

/-! ### Gates on one qubit -/

theorem adjoint_matrix (axis : Axis) (theta : ℝ) :
    (axis.matrix theta).adjoint = axis.matrix (-theta) := by
  apply Matrix2.ext_entries <;> intro b
  · rw [Matrix2.stay_adjoint]
    cases axis with
    | x => rw [stay_rx, stay_rx, conj_ofReal, neg_div, Real.cos_neg]
    | y => rw [stay_ry, stay_ry, conj_ofReal, neg_div, Real.cos_neg]
    | z => rw [stay_rz, stay_rz, conj_exp_mul_I]; cases b <;> simp [neg_div]
  · rw [Matrix2.cross_adjoint]
    cases axis with
    | x =>
      rw [cross_rx, cross_rx, map_neg, map_mul, conj_ofReal, conj_I, neg_div, Real.sin_neg]
      push_cast
      ring
    | y => rw [cross_ry, cross_ry, conj_ofReal, neg_div, Real.sin_neg]; cases b <;> simp
    | z => rw [cross_rz, cross_rz, map_zero]

theorem unitary_matrix (axis : Axis) (theta : ℝ) : (axis.matrix theta).Unitary := by
  constructor <;> intro b <;>
    rw [← Matrix2.stay_adjoint, ← Matrix2.cross_adjoint, adjoint_matrix]
  · rw [← matrix_add_stay, neg_add_cancel, matrix_zero_stay]
  · rw [← matrix_add_cross, neg_add_cancel, matrix_zero_cross]

theorem adjoint_flip : (Matrix2.flip : Matrix2 ℝ).adjoint = .flip := by
  apply Matrix2.ext_entries <;> intro b
  · rw [Matrix2.stay_adjoint, stay_flip, map_zero]
  · rw [Matrix2.cross_adjoint, cross_flip, cross_flip, map_one]

theorem unitary_flip : (Matrix2.flip : Matrix2 ℝ).Unitary := by
  constructor <;> intro b <;> simp [stay_flip, cross_flip]

theorem adjoint_u (theta phi lambda : ℝ) :
    (Matrix2.u theta phi lambda).adjoint = .u (-theta) (-lambda) (-phi) := by
  apply Matrix2.ext_entries <;> intro b
  · rw [Matrix2.stay_adjoint, stay_u, stay_u, map_mul, conj_ofReal, conj_exp_mul_I, neg_div,
      Real.cos_neg]
    cases b <;> simp [add_comm]
  · rw [Matrix2.cross_adjoint, cross_u, cross_u, map_mul, map_mul, conj_ofReal, conj_exp_mul_I,
      neg_div, Real.sin_neg]
    cases b <;> simp

theorem exp_mul_exp (x y : ℝ) : exp (x * I) * exp (y * I) = exp ((x + y : ℝ) * I) := by
  rw [← Complex.exp_add, ← add_mul, ← ofReal_add]

theorem unitary_u (theta phi lambda : ℝ) : (Matrix2.u theta phi lambda).Unitary := by
  have one : ((Real.cos (theta / 2) : ℝ) : ℂ) * (Real.cos (theta / 2) : ℝ) +
      (Real.sin (theta / 2) : ℝ) * (Real.sin (theta / 2) : ℝ) = 1 := by
    rw [← ofReal_mul, ← ofReal_mul, ← ofReal_add, ← sq, ← sq, Real.cos_sq_add_sin_sq, ofReal_one]
  have phase : ∀ x : ℝ, exp ((-x : ℝ) * I) * exp (x * I) = 1 := by
    intro x
    rw [exp_mul_exp, neg_add_cancel, ofReal_zero, zero_mul, Complex.exp_zero]
  have sign : ∀ b : Bool, conj (if b then 1 else -1 : ℂ) * (if b then 1 else -1) = 1 := by
    intro b
    cases b <;> simp
  constructor <;> intro b
  · rw [stay_u, cross_u]
    simp only [map_mul, conj_ofReal, conj_exp_mul_I]
    linear_combination one +
      (Real.cos (theta / 2) : ℂ) ^ 2 * phase (if b then phi + lambda else 0) +
      (Real.sin (theta / 2) : ℂ) ^ 2 * phase (if !b then phi else lambda) +
      (Real.sin (theta / 2) : ℂ) ^ 2 * exp ((-(if !b then phi else lambda) : ℝ) * I) *
        exp ((if !b then phi else lambda : ℝ) * I) * sign (!b)
  · rw [stay_u, stay_u, cross_u, cross_u]
    simp only [map_mul, conj_ofReal, conj_exp_mul_I]
    cases b
    · have hphase := exp_mul_exp (-phi) (phi + lambda)
      rw [neg_add_cancel_left] at hphase
      simp only [Bool.false_eq_true, if_false, Bool.not_false, if_true, neg_zero, ofReal_zero,
        zero_mul, Complex.exp_zero, map_one]
      linear_combination
        (Real.sin (theta / 2) : ℂ) * (Real.cos (theta / 2) : ℂ) * hphase
    · have hphase := exp_mul_exp (-(phi + lambda)) phi
      rw [neg_add_rev, neg_add_cancel_right] at hphase
      simp only [Bool.false_eq_true, if_false, Bool.not_true, if_true, ofReal_zero, zero_mul,
        Complex.exp_zero, map_neg, map_one, neg_add_rev]
      linear_combination
        (Real.sin (theta / 2) : ℂ) * (Real.cos (theta / 2) : ℂ) * hphase

/-- **The matrix of the inverse gate is the adjoint.** -/
theorem matrix?_inverse {g : Gate ℝ} {m : Matrix2 ℝ} (h : g.matrix? = some m) :
    g.inverse.matrix? = some m.adjoint ∧ m.Unitary := by
  cases g with
  | x =>
    obtain rfl := Option.some.inj h
    exact ⟨congrArg some adjoint_flip.symm, unitary_flip⟩
  | rx theta =>
    obtain rfl := Option.some.inj h
    exact ⟨congrArg some (adjoint_matrix .x theta).symm, unitary_matrix .x theta⟩
  | ry theta =>
    obtain rfl := Option.some.inj h
    exact ⟨congrArg some (adjoint_matrix .y theta).symm, unitary_matrix .y theta⟩
  | rz theta =>
    obtain rfl := Option.some.inj h
    exact ⟨congrArg some (adjoint_matrix .z theta).symm, unitary_matrix .z theta⟩
  | u theta phi lambda =>
    obtain rfl := Option.some.inj h
    exact ⟨congrArg some (adjoint_u theta phi lambda).symm, unitary_u theta phi lambda⟩
  | cx => cases h

/-! ### Operations and their inverses -/

namespace Operation

variable {n : ℕ}

/-- **The inverse undoes an operation.** -/
theorem act_inverse_mul_act (op : Operation ℝ) : op.inverse.act * op.act = 1 := by
  obtain ⟨g, qs⟩ := op
  cases hm : g.matrix? with
  | none =>
    obtain rfl := matrix?_eq_none_iff.mp hm
    rcases qs with _ | ⟨c, _ | ⟨t, _ | ⟨q, qs⟩⟩⟩
    · exact one_mul _
    · exact one_mul _
    · exact flipWhere_mul_flipWhere _ _
    · exact one_mul _
  | some m =>
    obtain ⟨hinverse, hunitary⟩ := matrix?_inverse hm
    rcases qs with _ | ⟨q, _ | ⟨r, qs⟩⟩
    · unfold act
      dsimp only [inverse]
      rw [hm, hinverse, one_mul]
    · change (single g.inverse q).act * (single g q).act = 1
      rw [act_single hm, act_single hinverse]
      exact hunitary.adjoint_mul _
    · unfold act
      dsimp only [inverse]
      rw [hm, hinverse, one_mul]

theorem act_mul_act_inverse (op : Operation ℝ) : op.act * op.inverse.act = 1 := by
  have h := act_inverse_mul_act op.inverse
  rwa [inverse_inverse neg_neg] at h

theorem actAll_inverse_mul_actAll (ops : List (Operation ℝ)) :
    actAll (ops.map inverse).reverse * actAll ops = 1 := by
  induction ops with
  | nil => exact one_mul _
  | cons op ops ih =>
    rw [List.map_cons, List.reverse_cons, actAll_append, actAll_singleton, actAll, mul_assoc,
      ← mul_assoc _ (actAll ops), ih, one_mul, act_inverse_mul_act]

theorem actAll_mul_actAll_inverse (ops : List (Operation ℝ)) :
    actAll ops * actAll (ops.map inverse).reverse = 1 := by
  induction ops with
  | nil => exact one_mul _
  | cons op ops ih =>
    rw [List.map_cons, List.reverse_cons, actAll_append, actAll_singleton, actAll, mul_assoc,
      ← mul_assoc op.act, act_mul_act_inverse, one_mul, ih]

end Operation

/-! ### Trees -/

open Operation in
/-- **A tree and its inverse undo each other.** The tree leads from one state to another exactly if
its inverse leads back, so both the inverse after the tree and the tree after the inverse restore
every amplitude. The two are applied to their end on the same states. -/
theorem applyTree_inverse_iff {n : ℕ} (t : GateTree ℝ) (v w : QuantumState ℝ n) :
    (v.applyTree t = (w, none) ↔ w.applyTree t.inverse = (v, none)) ∧
      ((∃ u, v.applyTree t = (u, none)) ↔ ∃ u, v.applyTree t.inverse = (u, none)) := by
  constructor
  · rw [QuantumState.applyTree_eq_iff, QuantumState.applyTree_eq_iff, fits_flatten_inverse_iff,
      GateTree.flatten_inverse]
    refine and_congr_right fun _ => ⟨fun hwave => ?_, fun hwave => ?_⟩
    · rw [hwave, ← Module.End.mul_apply, actAll_inverse_mul_actAll, Module.End.one_apply]
    · rw [hwave, ← Module.End.mul_apply, actAll_mul_actAll_inverse, Module.End.one_apply]
  · rw [QuantumState.exists_applyTree_iff_fits, QuantumState.exists_applyTree_iff_fits,
      fits_flatten_inverse_iff]

end StatePrep
