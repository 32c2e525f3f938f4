import Mathlib.Analysis.InnerProductSpace.PiL2
import StatePrep.Proofs.Wave.Inverse

/-! # Overlaps and lengths

The amplitudes of a wave below `2 ^ n` are a vector (`below`) with a length, and two waves have an
overlap there (`overlap`). Over to the other side of an overlap an operation goes as its inverse
(`overlap_act`), so operations keep overlaps and lengths (`overlap_act_act`, `norm_actAll`). -/

namespace StatePrep

open Complex ComplexConjugate

variable {n : ℕ}

/-! ### Vectors -/

/-- The amplitudes of a wave below `2 ^ n`, as a vector. -/
noncomputable def below (n : ℕ) : Wave →ₗ[ℂ] EuclideanSpace ℂ (Fin (2 ^ n)) :=
  (WithLp.linearEquiv 2 ℂ (Fin (2 ^ n) → ℂ)).symm.toLinearMap ∘ₗ LinearMap.funLeft ℂ ℂ Fin.val

theorem below_apply (n : ℕ) (f : Wave) (i : Fin (2 ^ n)) : below n f i = f i := rfl

theorem norm_below_sq (n : ℕ) (f : Wave) :
    ‖below n f‖ ^ 2 = ∑ i ∈ Finset.range (2 ^ n), ‖f i‖ ^ 2 := by
  rw [EuclideanSpace.norm_sq_eq, Finset.sum_range]
  simp only [below_apply]

/-- The overlap of two waves below `2 ^ n`. -/
def overlap (n : ℕ) (f g : Wave) : ℂ := ∑ i ∈ Finset.range (2 ^ n), conj (f i) * g i

theorem conj_overlap (f g : Wave) : conj (overlap n f g) = overlap n g f := by
  unfold overlap
  rw [map_sum]
  refine Finset.sum_congr rfl fun i _ => ?_
  rw [map_mul, conj_conj, mul_comm]

theorem overlap_add (f g h : Wave) : overlap n f (g + h) = overlap n f g + overlap n f h := by
  unfold overlap
  rw [← Finset.sum_add_distrib]
  exact Finset.sum_congr rfl fun i _ => mul_add _ _ _

theorem overlap_smul (f g : Wave) (c : ℂ) : overlap n f (c • g) = c * overlap n f g := by
  unfold overlap
  rw [Finset.mul_sum]
  exact Finset.sum_congr rfl fun i _ => mul_left_comm _ _ _

theorem overlap_self (f : Wave) : overlap n f f = (‖below n f‖ ^ 2 : ℝ) := by
  rw [norm_below_sq, ofReal_sum]
  exact Finset.sum_congr rfl fun i _ => by rw [conj_mul', ofReal_pow]

/-- **The law of cosines.** -/
theorem norm_sub_sq_eq (f g : Wave) : ‖below n f - below n g‖ ^ 2 =
    ‖below n f‖ ^ 2 - 2 * (overlap n f g).re + ‖below n g‖ ^ 2 := by
  have hinner : inner ℂ (below n f) (below n g) = overlap n f g := by
    unfold overlap
    rw [PiLp.inner_apply, Finset.sum_range]
    simp only [below_apply, RCLike.inner_apply, mul_comm]
  rw [@norm_sub_sq ℂ, hinner]
  rfl

/-! ### The other side of an overlap -/

theorem sum_partner {t : ℕ} (ht : t < n) (f : ℕ → ℂ) :
    ∑ i ∈ Finset.range (2 ^ n), f (partner t i) = ∑ i ∈ Finset.range (2 ^ n), f i := by
  refine Finset.sum_nbij' (partner t) (partner t) ?_ ?_ ?_ ?_ ?_
  · exact fun i hi => Finset.mem_range.mpr (partner_lt ht (Finset.mem_range.mp hi))
  · exact fun i hi => Finset.mem_range.mpr (partner_lt ht (Finset.mem_range.mp hi))
  · exact fun i _ => partner_partner t i
  · exact fun i _ => partner_partner t i
  · exact fun i _ => rfl

/-- **The other side of a mixing map.** -/
theorem overlap_mix {t : ℕ} (ht : t < n) (stay cross : ℕ → ℂ) (f g : Wave) :
    overlap n (mix t stay cross f) g =
      overlap n f (mix t (fun i => conj (stay i)) (fun i => conj (cross (partner t i))) g) := by
  unfold overlap
  have left : ∀ i, conj (mix t stay cross f i) * g i =
      conj (stay i) * conj (f i) * g i + conj (cross i) * conj (f (partner t i)) * g i := by
    intro i
    rw [mix_apply, map_add, map_mul, map_mul]
    ring
  have right : ∀ i, conj (f i) *
      mix t (fun i => conj (stay i)) (fun i => conj (cross (partner t i))) g i =
        conj (stay i) * conj (f i) * g i +
          conj (cross (partner t i)) * conj (f i) * g (partner t i) := by
    intro i
    rw [mix_apply]
    ring
  rw [Finset.sum_congr rfl fun i _ => left i, Finset.sum_congr rfl fun i _ => right i,
    Finset.sum_add_distrib, Finset.sum_add_distrib,
    ← sum_partner ht fun i => conj (cross (partner t i)) * conj (f i) * g (partner t i)]
  simp only [partner_partner]

theorem overlap_turn {axis : Axis} {t : ℕ} (ht : t < n) {angle : ℕ → ℝ} (h : Ignores t angle)
    (f g : Wave) :
    overlap n (turn axis t angle f) g = overlap n f (turn axis t (fun i => -angle i) g) := by
  have hadjoint : mix t (fun i => conj ((axis.matrix (angle i)).stay (i.testBit t)))
      (fun i => conj ((axis.matrix (angle (partner t i))).cross ((partner t i).testBit t))) =
        turn axis t (fun i => -angle i) := by
    unfold turn
    congr 1 <;> funext i
    · rw [← Matrix2.stay_adjoint, adjoint_matrix]
    · rw [testBit_partner_self, h i, ← Matrix2.cross_adjoint, adjoint_matrix]
  rw [turn, overlap_mix ht, hadjoint]

theorem norm_below_eq {f g : Wave} (h : overlap n f f = overlap n g g) :
    ‖below n f‖ = ‖below n g‖ := by
  rw [overlap_self, overlap_self, ofReal_inj] at h
  exact (sq_eq_sq₀ (norm_nonneg _) (norm_nonneg _)).mp h

theorem norm_turn {axis : Axis} {t : ℕ} (ht : t < n) {angle : ℕ → ℝ} (h : Ignores t angle)
    (f : Wave) : ‖below n (turn axis t angle f)‖ = ‖below n f‖ := by
  apply norm_below_eq
  rw [overlap_turn ht h, ← Module.End.mul_apply, turn_mul_turn axis t _ h]
  simp only [neg_add_cancel, turn_zero, Module.End.one_apply]

namespace Operation

/-- **An operation goes over to the other side of an overlap as its inverse.** -/
theorem overlap_act {op : Operation ℝ} (h : op.Fits n) (f g : Wave) :
    overlap n (op.act f) g = overlap n f (op.inverse.act g) := by
  rcases h.cases with ⟨g', m, q, rfl, hm, hlt⟩ | ⟨c, t, rfl, -, ht⟩
  · change _ = overlap n f ((single g'.inverse q).act g)
    rw [act_single hm, act_single (matrix?_inverse hm).1, Matrix2.onQubit, Matrix2.onQubit,
      overlap_mix hlt]
    simp only [Matrix2.stay_adjoint, Matrix2.cross_adjoint, testBit_partner_self]
  · change overlap n (flipWhere c.bit t.bit f) g = overlap n f (flipWhere c.bit t.bit g)
    unfold flipWhere
    rw [overlap_mix ht]
    have hstay : (fun i : ℕ => conj (if i.testBit c.bit ∧ c.bit ≠ t.bit then 0 else 1 : ℂ)) =
        fun i => if i.testBit c.bit ∧ c.bit ≠ t.bit then 0 else 1 := by
      funext i
      split <;> simp
    have hcross : (fun i : ℕ => conj
        (if (partner t.bit i).testBit c.bit ∧ c.bit ≠ t.bit then 1 else 0 : ℂ)) =
        fun i => if i.testBit c.bit ∧ c.bit ≠ t.bit then 1 else 0 := by
      funext i
      by_cases hct : c.bit = t.bit
      · simp [hct]
      · rw [testBit_partner_of_ne (Ne.symm hct)]
        split <;> simp
    rw [hstay, hcross]

theorem overlap_act_act {op : Operation ℝ} (h : op.Fits n) (f g : Wave) :
    overlap n (op.act f) (op.act g) = overlap n f g := by
  rw [overlap_act h, ← Module.End.mul_apply, act_inverse_mul_act, Module.End.one_apply]

theorem norm_act {op : Operation ℝ} (h : op.Fits n) (f : Wave) :
    ‖below n (op.act f)‖ = ‖below n f‖ :=
  norm_below_eq (overlap_act_act h f f)

theorem norm_actAll {ops : List (Operation ℝ)} (h : ∀ op ∈ ops, op.Fits n) (f : Wave) :
    ‖below n (actAll ops f)‖ = ‖below n f‖ := by
  induction ops generalizing f with
  | nil => rfl
  | cons op ops ih =>
    rw [actAll, Module.End.mul_apply, ih fun op' hop' => h op' (by simp [hop']),
      norm_act (h op (by simp))]

end Operation

end StatePrep
