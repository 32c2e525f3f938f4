import StatePrep.Proofs.Simplify.FreeReduction
import StatePrep.Proofs.State.Sequence
import StatePrep.Proofs.Wave.Basic

/-! # What operations do to waves

The wave of a state has the amplitudes of the state. What an operation that is applied does to the
wave is a linear map that does not depend on the size of the state (`wave_of_apply`), and for a
sequence the maps multiply (`wave_of_applyAll`). So a tree leads from one state to another if its
leaves fit and their maps lead from the one wave to the other (`applyTree_eq_iff`).

A cancelling pair does nothing (`act_mul_act_of_cancels`), so free reduction does not change what a
sequence does (`actAll_freeReduce`). -/

namespace StatePrep

open Complex

namespace QuantumState

variable {n : ℕ}

/-! ### The wave of a state -/

/-- The amplitudes of a state, with zeros above them. -/
def wave (v : QuantumState ℝ n) : Wave := fun i => if h : i < 2 ^ n then v.amps[i].toComplex else 0

theorem wave_of_lt (v : QuantumState ℝ n) {i : ℕ} (h : i < 2 ^ n) :
    v.wave i = v.amps[i].toComplex := dif_pos h

theorem wave_of_not_lt (v : QuantumState ℝ n) {i : ℕ} (h : ¬ i < 2 ^ n) : v.wave i = 0 := dif_neg h

theorem wave_injective : Function.Injective (wave : QuantumState ℝ n → Wave) := by
  intro v w h
  refine ext_amps fun i hi => Amplitude.toComplex_injective ?_
  rw [← wave_of_lt v hi, ← wave_of_lt w hi, h]

theorem exists_wave_eq {f : Wave} (h : ∀ i, ¬ i < 2 ^ n → f i = 0) :
    ∃ v : QuantumState ℝ n, v.wave = f := by
  refine ⟨⟨Vector.ofFn fun i => ⟨(f i).re, (f i).im⟩⟩, funext fun i => ?_⟩
  by_cases hi : i < 2 ^ n
  · rw [wave_of_lt _ hi, Vector.getElem_ofFn]
    rfl
  · rw [wave_of_not_lt _ hi, h i hi]

/-- The basis state with a given index. -/
def basis {α : Type} [Scalar α] (n i : ℕ) (hi : i < 2 ^ n) : QuantumState α n :=
  ⟨(Vector.replicate (2 ^ n) 0).set i 1⟩

theorem getElem_basis {α : Type} [Scalar α] {i j : ℕ} (hi : i < 2 ^ n) (hj : j < 2 ^ n) :
    (basis n i hi : QuantumState α n).amps[j] = if j = i then 1 else 0 := by
  unfold basis
  by_cases h : j = i
  · subst h
    rw [if_pos rfl, Vector.getElem_set_self]
  · rw [if_neg h, Vector.getElem_set_ne _ _ (Ne.symm h), Vector.getElem_replicate]

theorem getElem_zero {α : Type} [Scalar α] (n : ℕ) {i : ℕ} (hi : i < 2 ^ n) :
    (zero n : QuantumState α n).amps[i] = if i = 0 then 1 else 0 :=
  getElem_basis (Nat.two_pow_pos n) hi

theorem wave_zero (n : ℕ) : (zero n : QuantumState ℝ n).wave = ground := by
  funext i
  by_cases hi : i < 2 ^ n
  · rw [wave_of_lt _ hi, getElem_zero n hi]
    unfold ground
    split <;> simp
  · rw [wave_of_not_lt _ hi, ground, if_neg]
    rintro rfl
    exact hi (Nat.two_pow_pos n)

theorem wave_applyMatrix (m : Matrix2 ℝ) (q : Fin n) (v : QuantumState ℝ n) :
    (v.applyMatrix m q).wave = m.onQubit q v.wave := by
  funext i
  rw [Matrix2.onQubit, mix_apply]
  by_cases hi : i < 2 ^ n
  · have hp := partner_lt q.isLt hi
    rw [wave_of_lt _ hi, wave_of_lt _ hi, wave_of_lt _ hp, getElem_applyMatrix]
    cases i.testBit q
    · simp [Matrix2.apply, Matrix2.stay, Matrix2.cross]
    · simp [Matrix2.apply, Matrix2.stay, Matrix2.cross, add_comm]
  · have hp := (partner_lt_iff (i := i) q.isLt).not.mpr hi
    rw [wave_of_not_lt _ hi, wave_of_not_lt _ hi, wave_of_not_lt _ hp, mul_zero, mul_zero, add_zero]

theorem wave_applyCx (control target : Fin n) (v : QuantumState ℝ n) :
    (v.applyCx control target).wave = flipWhere control target v.wave := by
  funext i
  rw [flipWhere_apply]
  by_cases hi : i < 2 ^ n
  · have hp := partner_lt target.isLt hi
    rw [wave_of_lt _ hi, wave_of_lt _ hi, wave_of_lt _ hp, getElem_applyCx]
    simp only [ne_eq, Fin.ext_iff]
    split <;> rfl
  · have hp := (partner_lt_iff (i := i) target.isLt).not.mpr hi
    rw [wave_of_not_lt _ hi, wave_of_not_lt _ hi, wave_of_not_lt _ hp, ite_self]

end QuantumState

/-! ### Operations -/

namespace Operation

/-- What an operation does to a wave. One with a wrong number of operands does nothing. -/
noncomputable def act (op : Operation ℝ) : Module.End ℂ Wave :=
  match op.gate.matrix?, op.operands with
  | some m, [q] => m.onQubit q.bit
  | none, [control, target] => flipWhere control.bit target.bit
  | _, _ => 1

theorem act_single {g : Gate ℝ} {m : Matrix2 ℝ} (h : g.matrix? = some m) (q : Qubit) :
    (single g q).act = m.onQubit q.bit := by
  unfold act single
  rw [h]

theorem act_rotation (axis : Axis) (theta : ℝ) (q : Qubit) :
    (rotation axis theta q).act = turn axis q.bit (fun _ => theta) := by
  rw [rotation, act_single (matrix?_rotation axis theta)]
  rfl

theorem act_cx (control target : Qubit) :
    (cx control target : Operation ℝ).act = flipWhere control.bit target.bit := rfl

/-- What operations in a row do to a wave. -/
noncomputable def actAll : List (Operation ℝ) → Module.End ℂ Wave
  | [] => 1
  | op :: ops => actAll ops * op.act

theorem actAll_append (ops more : List (Operation ℝ)) :
    actAll (ops ++ more) = actAll more * actAll ops := by
  induction ops with
  | nil => rw [List.nil_append, actAll, mul_one]
  | cons op ops ih => rw [List.cons_append, actAll, actAll, ih, mul_assoc]

@[simp] theorem actAll_singleton (op : Operation ℝ) : actAll [op] = op.act := by
  rw [actAll, actAll, one_mul]

end Operation

open Operation

/-! ### Simulation -/

namespace QuantumState

variable {n : ℕ}

theorem wave_of_apply {op : Operation ℝ} {v w : QuantumState ℝ n} (h : v.apply op = .ok w) :
    w.wave = op.act v.wave := by
  rcases apply_eq_ok_iff.mp h with ⟨g, m, q, t, rfl, hm, hq, rfl⟩ | ⟨q, r, c, t, rfl, hq, hr, rfl⟩
  · rw [act_single hm, wave_applyMatrix, hq]
  · rw [act_cx, wave_applyCx, hq, hr]

/-- **A sequence that is applied to its end** acts on the wave, one operation after the other. -/
theorem wave_of_applyAll {ops : List (Operation ℝ)} {v w : QuantumState ℝ n}
    (h : applyAll ops v = (w, none)) : w.wave = actAll ops v.wave := by
  induction ops generalizing v with
  | nil =>
    obtain rfl := (Prod.mk.inj h).1
    rfl
  | cons op ops ih =>
    obtain ⟨u, hop, hops⟩ := applyAll_cons_iff.mp h
    rw [ih hops, wave_of_apply hop, actAll, Module.End.mul_apply]

theorem applyTree_of_fits {t : GateTree ℝ} (h : ∀ op ∈ t.flatten, op.Fits n)
    (v : QuantumState ℝ n) :
    ∃ w, v.applyTree t = (w, none) ∧ w.wave = actAll t.flatten v.wave := by
  obtain ⟨w, hw⟩ := exists_applyTree_iff_fits.mpr h
  refine ⟨w, hw, ?_⟩
  rw [applyTree_eq_applyAll] at hw
  exact wave_of_applyAll hw

theorem applyTree_eq_iff {t : GateTree ℝ} {v w : QuantumState ℝ n} :
    v.applyTree t = (w, none) ↔
      (∀ op ∈ t.flatten, op.Fits n) ∧ w.wave = actAll t.flatten v.wave := by
  constructor
  · intro h
    refine ⟨exists_applyTree_iff_fits.mp ⟨w, h⟩, ?_⟩
    rw [applyTree_eq_applyAll] at h
    exact wave_of_applyAll h
  · rintro ⟨hfits, hwave⟩
    obtain ⟨u, hu, huwave⟩ := applyTree_of_fits hfits v
    rw [hu, wave_injective (huwave.trans hwave.symm)]

end QuantumState

/-! ### Cancelling -/

namespace Operation

/-- **Cancelling operations undo each other.** -/
theorem act_mul_act_of_cancels {op next : Operation ℝ} (h : op.cancels next = true) :
    next.act * op.act = 1 := by
  obtain ⟨hcx, rfl⟩ := cancels_iff.mp h
  obtain ⟨g, qs⟩ := op
  obtain rfl : g = .cx := Gate.isCx_iff.mp hcx
  unfold act
  simp only [Gate.matrix?]
  rcases qs with _ | ⟨c, _ | ⟨t, _ | ⟨q, qs⟩⟩⟩
  · exact one_mul _
  · exact one_mul _
  · exact flipWhere_mul_flipWhere _ _
  · exact one_mul _

/-- **Free reduction does not change what a sequence does.** -/
theorem actAll_freeReduce (ops : List (Operation ℝ)) : actAll (freeReduce ops) = actAll ops := by
  refine freeReduce_induction (P := fun reduced => actAll reduced = actAll ops) ?_ rfl
  intro before after op next hc h
  rw [actAll_append, actAll, actAll, mul_assoc (actAll after), act_mul_act_of_cancels hc,
    mul_one] at h
  rw [actAll_append, h]

end Operation

end StatePrep
