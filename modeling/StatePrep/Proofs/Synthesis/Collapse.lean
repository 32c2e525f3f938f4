import StatePrep.Proofs.Synthesis.BlochAngles

/-! # Every pair of a list collapses

The matrix of the angle about the `y` axis times the one of the angle about the `z` axis turns a
pair into what is left of it and zero (`Collapses.apply_eq`), and the first of the two angles is
that of a point in the upper half of a circle (`neg_theta_mem_Icc`). `disentangle_collapses` puts
together what this means for a list of amplitudes. The tolerance need not be positive: without one
only the pair of two zeros has no length, and it stays. -/

namespace StatePrep

open Complex

/-! ### Products of matrices -/

namespace Matrix2

theorem mul_apply (m k : Matrix2 ℝ) (a b : Amplitude ℝ) :
    (m * k).apply a b = m.apply (k.apply a b).1 (k.apply a b).2 := by
  have row : ∀ x y : Amplitude ℝ, (x * k.a + y * k.c) * a + (x * k.b + y * k.d) * b =
      x * (k.a * a + k.b * b) + y * (k.c * a + k.d * b) := by
    intro x y
    apply Amplitude.toComplex_injective
    simp only [Amplitude.toComplex_add, Amplitude.toComplex_mul]
    ring
  exact Prod.ext (row m.a m.b) (row m.c m.d)

end Matrix2

namespace BlochAngles

/-! ### One pair -/

/-- **Collapsing is an equation of matrices.** -/
theorem Collapses.apply_eq {p : BlochAngles ℝ} {a b : Amplitude ℝ}
    (h : p.Collapses a.toComplex b.toComplex) :
    (Matrix2.ry p.theta * Matrix2.rz p.phi).apply a b = (p.remaining, 0) := by
  have hfirst : ((Matrix2.rz p.phi).apply a b).1.toComplex =
      (Axis.z.matrix p.phi).stay false * a.toComplex := by
    change (Axis.z.matrix p.phi).stay false * a.toComplex + 0 * b.toComplex = _
    rw [zero_mul, add_zero]
  have hsecond : ((Matrix2.rz p.phi).apply a b).2.toComplex =
      (Axis.z.matrix p.phi).stay true * b.toComplex := by
    change 0 * a.toComplex + (Axis.z.matrix p.phi).stay true * b.toComplex = _
    rw [zero_mul, zero_add]
  rw [Matrix2.mul_apply]
  refine Prod.ext ?_ ?_ <;> apply Amplitude.toComplex_injective
  · refine Eq.trans ?_ h.first
    rw [← hfirst, ← hsecond]
    rfl
  · refine Eq.trans ?_ h.second
    rw [← hfirst, ← hsecond, add_comm]
    rfl

theorem pairLength_nonneg (a b : Amplitude ℝ) : 0 ≤ pairLength a b := Real.sqrt_nonneg _

theorem eq_zero_of_pairLength {a b : Amplitude ℝ} (h : pairLength a b = 0) : a = 0 ∧ b = 0 := by
  have hsum := pairLength_sq a b
  rw [h, zero_pow two_ne_zero] at hsum
  have ha : ‖a.toComplex‖ ^ 2 = 0 := by
    linarith [sq_nonneg ‖a.toComplex‖, sq_nonneg ‖b.toComplex‖]
  have hb : ‖b.toComplex‖ ^ 2 = 0 := by linarith
  rw [sq_eq_zero_iff, norm_eq_zero] at ha hb
  exact ⟨Amplitude.toComplex_injective ha, Amplitude.toComplex_injective hb⟩

/-- **The way back collapses a pair** that is not shorter than the tolerance, whatever this is. -/
theorem collapses_of_long {tolerance : ℝ} {a b : Amplitude ℝ} (h : tolerance ≤ pairLength a b) :
    (ofPair tolerance a b).opposite.Collapses a.toComplex b.toComplex := by
  -- a pair that is long has the same angles under every tolerance
  have hlength : ofPair tolerance a b = ofPair (pairLength a b) a b := by
    rw [ofPair_of_long h, ofPair_of_long le_rfl]
  rcases (pairLength_nonneg a b).eq_or_lt with hzero | hpos
  · obtain ⟨rfl, rfl⟩ := eq_zero_of_pairLength hzero.symm
    rw [ofPair_of_long h, ← hzero]
    constructor
    · simp [opposite, Amplitude.toComplex_polar]
    · simp
  · rw [hlength]
    exact collapses_opposite_ofPair hpos le_rfl

theorem norm_remaining_of_long {tolerance : ℝ} {a b : Amplitude ℝ}
    (h : tolerance ≤ pairLength a b) :
    (ofPair tolerance a b).opposite.remaining.norm = pairLength a b := by
  rw [ofPair_of_long h, Amplitude.norm_eq]
  dsimp only [opposite]
  rw [Amplitude.toComplex_polar, norm_mul, norm_exp_ofReal_mul_I, mul_one, norm_real,
    Real.norm_eq_abs, abs_of_nonneg (pairLength_nonneg a b)]

/-- **The angle of the way there** about the `y` axis is twice that of a point with two magnitudes
as its coordinates. -/
theorem neg_theta_mem_Icc {tolerance : ℝ} {a b : Amplitude ℝ} (h : tolerance ≤ pairLength a b) :
    -(ofPair tolerance a b).opposite.theta ∈ Set.Icc 0 Real.pi := by
  have hre : 0 ≤ (⟨a.norm, b.norm⟩ : ℂ).re := Real.sqrt_nonneg _
  have him : 0 ≤ (⟨a.norm, b.norm⟩ : ℂ).im := Real.sqrt_nonneg _
  have hlow : 0 ≤ Complex.arg ⟨a.norm, b.norm⟩ := arg_nonneg_iff.mpr him
  have hhigh := (abs_le.mp (abs_arg_le_pi_div_two_iff.mpr hre)).2
  rw [ofPair_of_long h]
  dsimp only [opposite]
  rw [neg_neg]
  exact ⟨by linarith, by linarith⟩

end BlochAngles

/-! ### Lists -/

theorem disentangle_append_singleton {α : Type} [Analytic α] (tolerance : α)
    {amps : List (Amplitude α)} (h : 2 ∣ amps.length) (last : Amplitude α) :
    disentangle tolerance (amps ++ [last]) = disentangle tolerance amps := by
  fun_induction disentangle tolerance amps with
  | case1 a b more ih =>
    simp only [List.length_cons] at h
    rw [List.cons_append, List.cons_append, disentangle, ih (by omega)]
  | case2 amps hshort =>
    cases amps with
    | nil => rfl
    | cons a amps =>
      cases amps with
      | nil => simp at h
      | cons b more => exact absurd rfl (hshort a b more)

/-- **Disentangling collapses every pair.** A list of any length gives angles for half as many
pairs, and an amplitude without a partner is left out. The angles of a pair that is not shorter than
the tolerance turn it into what is left and zero, and what is left has the length of the pair. A
shorter pair has no angles, and nothing is left of it. -/
theorem disentangle_collapses (tolerance : ℝ) (amps : List (Amplitude ℝ)) :
    (disentangle tolerance amps).length = amps.length / 2 ∧
    (∀ last, 2 ∣ amps.length →
      disentangle tolerance (amps ++ [last]) = disentangle tolerance amps) ∧
    ∀ (i : ℕ) (hi : 2 * i + 1 < amps.length),
      let a := amps[2 * i]
      let b := amps[2 * i + 1]
      ∃ p, (disentangle tolerance amps)[i]? = some p ∧
        (tolerance ≤ pairLength a b →
          (Matrix2.ry p.theta * Matrix2.rz p.phi).apply a b = (p.remaining, 0) ∧
            p.remaining.norm = pairLength a b ∧ -p.theta ∈ Set.Icc 0 Real.pi) ∧
        (pairLength a b < tolerance → p.theta = 0 ∧ p.phi = 0 ∧ p.remaining = 0) := by
  refine ⟨length_disentangle tolerance amps,
    fun last h => disentangle_append_singleton tolerance h last, fun i hi => ?_⟩
  have hentry := getElem?_disentangle tolerance hi
  rw [List.getD_eq_getElem _ _ (by omega), List.getD_eq_getElem _ _ hi] at hentry
  refine ⟨_, hentry, fun hlong => ?_, fun hshort => ?_⟩
  · exact ⟨(BlochAngles.collapses_of_long hlong).apply_eq,
      BlochAngles.norm_remaining_of_long hlong, BlochAngles.neg_theta_mem_Icc hlong⟩
  · rw [BlochAngles.ofPair_of_short hshort]
    exact ⟨neg_zero, neg_zero, rfl⟩

end StatePrep
