import StatePrep.Proofs.Wave.Basic
import StatePrep.Synthesis.Preparation

/-! # What disentangling does to a pair

The angles of the way back turn a pair of amplitudes into what is left of it and zero (`Collapses`).
This holds for every pair that is not shorter than the tolerance, whose length is then the magnitude
of what is left, and for the pair of two zeros; a shorter pair counts as zero
(`collapses_opposite_ofPair`, `collapses_of_short`).

`getElem?_disentangle` says which pairs the angles of a list belong to, and
`weight_remaining_add_lostWeight` that the weight of a list is the weight of what is left and of the
short pairs together. -/

namespace StatePrep

open Complex

/-- The length of a pair of amplitudes. -/
noncomputable def pairLength (a b : Amplitude ℝ) : ℝ := Real.sqrt (a.normSq + b.normSq)

theorem pairLength_sq (a b : Amplitude ℝ) :
    pairLength a b ^ 2 = ‖a.toComplex‖ ^ 2 + ‖b.toComplex‖ ^ 2 := by
  rw [pairLength, Amplitude.normSq_eq, Amplitude.normSq_eq, Real.sq_sqrt (by positivity)]

theorem pairLength_mk_zero (x y : ℝ) : pairLength ⟨x, 0⟩ ⟨y, 0⟩ = Real.sqrt (x ^ 2 + y ^ 2) := by
  rw [pairLength, Amplitude.normSq_eq, Amplitude.normSq_eq, Amplitude.toComplex_mk_zero,
    Amplitude.toComplex_mk_zero, norm_real, norm_real, Real.norm_eq_abs, Real.norm_eq_abs, sq_abs,
    sq_abs]

theorem le_pairLength_left (x y : ℝ) : x ≤ pairLength ⟨x, 0⟩ ⟨y, 0⟩ := by
  rw [pairLength_mk_zero]
  exact Real.le_sqrt_of_sq_le (le_add_of_nonneg_right (sq_nonneg y))

theorem le_pairLength_right (x y : ℝ) : y ≤ pairLength ⟨x, 0⟩ ⟨y, 0⟩ := by
  rw [pairLength_mk_zero]
  exact Real.le_sqrt_of_sq_le (le_add_of_nonneg_left (sq_nonneg x))

namespace BlochAngles

/-- The rotation about the `z` axis and then the one about the `y` axis turn a pair into what is
left and zero. -/
structure Collapses (p : BlochAngles ℝ) (a b : ℂ) : Prop where
  first : (Axis.y.matrix p.theta).stay false * ((Axis.z.matrix p.phi).stay false * a) +
    (Axis.y.matrix p.theta).cross false * ((Axis.z.matrix p.phi).stay true * b) =
      p.remaining.toComplex
  second : (Axis.y.matrix p.theta).stay true * ((Axis.z.matrix p.phi).stay true * b) +
    (Axis.y.matrix p.theta).cross true * ((Axis.z.matrix p.phi).stay false * a) = 0

theorem ofPair_of_short {tolerance : ℝ} {a b : Amplitude ℝ} (h : pairLength a b < tolerance) :
    ofPair tolerance a b = ⟨0, 0, 0⟩ := if_pos h

theorem ofPair_of_long {tolerance : ℝ} {a b : Amplitude ℝ} (h : tolerance ≤ pairLength a b) :
    ofPair tolerance a b = ⟨Complex.arg ⟨a.norm, b.norm⟩ + Complex.arg ⟨a.norm, b.norm⟩,
      b.arg - a.arg, .polar (pairLength a b) ((a.arg + b.arg) / 2)⟩ := by
  refine (if_neg (not_lt.mpr h)).trans ?_
  rw [half_real]
  rfl

/-- A pair of numbers that are not negative has no phases. -/
theorem ofPair_of_nonneg {tolerance x y : ℝ} (hx : 0 ≤ x) (hy : 0 ≤ y)
    (h : tolerance ≤ pairLength ⟨x, 0⟩ ⟨y, 0⟩) : ofPair tolerance ⟨x, 0⟩ ⟨y, 0⟩ =
      ⟨Complex.arg ⟨x, y⟩ + Complex.arg ⟨x, y⟩, 0, ⟨pairLength ⟨x, 0⟩ ⟨y, 0⟩, 0⟩⟩ := by
  have hnorm : ∀ z : ℝ, 0 ≤ z → (⟨z, 0⟩ : Amplitude ℝ).norm = z := by
    intro z hz
    rw [Amplitude.norm_eq, Amplitude.toComplex_mk_zero, Complex.norm_of_nonneg hz]
  have harg : ∀ z : ℝ, 0 ≤ z → (⟨z, 0⟩ : Amplitude ℝ).arg = 0 := by
    intro z hz
    rw [Amplitude.arg_eq, Amplitude.toComplex_mk_zero, Complex.arg_ofReal_of_nonneg hz]
  have hpolar : ∀ r : ℝ, Amplitude.polar r 0 = ⟨r, 0⟩ := by
    intro r
    refine Amplitude.toComplex_injective ?_
    rw [Amplitude.toComplex_polar, Amplitude.toComplex_mk_zero, ofReal_zero, zero_mul,
      Complex.exp_zero, mul_one]
  rw [ofPair_of_long h, hnorm x hx, hnorm y hy, harg x hx, harg y hy, sub_zero, add_zero, zero_div,
    hpolar]

theorem collapses_of_short {tolerance : ℝ} {a b : Amplitude ℝ} (h : pairLength a b < tolerance) :
    (ofPair tolerance a b).opposite.Collapses 0 0 := by
  rw [ofPair_of_short h]
  constructor
  · rw [mul_zero, mul_zero, mul_zero, mul_zero, add_zero]
    rfl
  · rw [mul_zero, mul_zero, mul_zero, mul_zero, add_zero]

/-- Rotating about the `z` axis gives both amplitudes the mean of their phases. -/
theorem stay_rz_mul_eq (a b : Amplitude ℝ) :
    (Axis.z.matrix (-(b.arg - a.arg))).stay false * a.toComplex =
        ‖a.toComplex‖ * exp (((a.arg + b.arg) / 2 : ℝ) * I) ∧
      (Axis.z.matrix (-(b.arg - a.arg))).stay true * b.toComplex =
        ‖b.toComplex‖ * exp (((a.arg + b.arg) / 2 : ℝ) * I) := by
  have polar : ∀ (c : Amplitude ℝ) (x y : ℝ), x + c.arg = y →
      exp (x * I) * c.toComplex = ‖c.toComplex‖ * exp (y * I) := by
    rintro c x y rfl
    nth_rewrite 1 [← norm_mul_exp_arg_mul_I c.toComplex]
    rw [ofReal_add, add_mul, Complex.exp_add, Amplitude.arg_eq]
    ring
  constructor
  · rw [stay_rz]
    exact polar a _ _ (by simp only [Bool.false_eq_true, if_false]; ring)
  · rw [stay_rz]
    exact polar b _ _ (by simp only [if_true]; ring)

theorem cos_sin_arg_norms {a b : Amplitude ℝ} (h : 0 < pairLength a b) :
    Real.cos (Complex.arg ⟨a.norm, b.norm⟩) = ‖a.toComplex‖ / pairLength a b ∧
      Real.sin (Complex.arg ⟨a.norm, b.norm⟩) = ‖b.toComplex‖ / pairLength a b := by
  have hnorm : ‖(⟨a.norm, b.norm⟩ : ℂ)‖ = pairLength a b := by
    have hsq : ‖(⟨a.norm, b.norm⟩ : ℂ)‖ ^ 2 = pairLength a b ^ 2 := by
      rw [pairLength_sq, Complex.sq_norm, Complex.normSq_mk, Amplitude.norm_eq, Amplitude.norm_eq]
      ring
    exact (sq_eq_sq₀ (norm_nonneg _) h.le).mp hsq
  have hne : (⟨a.norm, b.norm⟩ : ℂ) ≠ 0 := by
    rw [← norm_pos_iff, hnorm]
    exact h
  rw [Complex.cos_arg hne, Complex.sin_arg, hnorm, ← Amplitude.norm_eq, ← Amplitude.norm_eq]
  exact ⟨rfl, rfl⟩

/-- **The way back collapses a pair** that is not shorter than the tolerance. -/
theorem collapses_opposite_ofPair {tolerance : ℝ} (hpos : 0 < tolerance) {a b : Amplitude ℝ}
    (h : tolerance ≤ pairLength a b) :
    (ofPair tolerance a b).opposite.Collapses a.toComplex b.toComplex := by
  have hlength : 0 < pairLength a b := hpos.trans_le h
  have hne : (pairLength a b : ℂ) ≠ 0 := ofReal_ne_zero.mpr hlength.ne'
  obtain ⟨hfirst, hsecond⟩ := stay_rz_mul_eq a b
  obtain ⟨hcos, hsin⟩ := cos_sin_arg_norms hlength
  have hhalf : ∀ x : ℝ, -(x + x) / 2 = -x := by
    intro x
    ring
  rw [ofPair_of_long h]
  constructor
  · dsimp only [opposite]
    have hsq : (pairLength a b : ℂ) ^ 2 = ‖a.toComplex‖ ^ 2 + ‖b.toComplex‖ ^ 2 := by
      exact_mod_cast pairLength_sq a b
    rw [hfirst, hsecond, stay_ry, cross_ry, hhalf, Real.cos_neg, Real.sin_neg, hcos, hsin,
      Amplitude.toComplex_polar]
    simp only [Bool.false_eq_true, if_false, neg_neg]
    push_cast
    field_simp
    rw [hsq]
  · dsimp only [opposite]
    rw [hfirst, hsecond, stay_ry, cross_ry, hhalf, Real.cos_neg, Real.sin_neg, hcos, hsin]
    simp only [if_true]
    push_cast
    ring

end BlochAngles

/-! ### Lists of pairs -/

/-- Each element at an even place with the one after it. -/
def neighbours {β : Type} : List β → List (β × β)
  | [] => []
  | [_] => []
  | a :: b :: more => (a, b) :: neighbours more

theorem length_neighbours {β : Type} (l : List β) : (neighbours l).length = l.length / 2 := by
  fun_induction neighbours l with
  | case1 => simp
  | case2 => simp
  | case3 a b more ih => simp only [List.length_cons, ih]; omega

theorem getElem?_neighbours {β : Type} (d : β) (l : List β) {r : ℕ} (h : 2 * r + 1 < l.length) :
    (neighbours l)[r]? = some (l.getD (2 * r) d, l.getD (2 * r + 1) d) := by
  fun_induction neighbours l generalizing r with
  | case1 => simp at h
  | case2 => simp at h
  | case3 a b more ih =>
    cases r with
    | zero => rfl
    | succ r =>
      simp only [List.length_cons] at h
      rw [List.getElem?_cons_succ, ih (by omega)]
      rfl

theorem sum_map_neighbours {β : Type} (f : β → ℝ) (l : List β) (h : 2 ∣ l.length) :
    ((neighbours l).map fun p => f p.1 + f p.2).sum = (l.map f).sum := by
  fun_induction neighbours l with
  | case1 => rfl
  | case2 => simp at h
  | case3 a b more ih =>
    simp only [List.length_cons] at h
    rw [List.map_cons, List.sum_cons, ih (by omega), List.map_cons, List.map_cons, List.sum_cons,
      List.sum_cons, add_assoc]

section Disentangle

variable {α : Type} [Analytic α]

theorem disentangle_eq_map (tolerance : α) (amps : List (Amplitude α)) :
    disentangle tolerance amps =
      (neighbours amps).map fun p => (BlochAngles.ofPair tolerance p.1 p.2).opposite := by
  fun_induction neighbours amps with
  | case1 => rfl
  | case2 => rfl
  | case3 a b more ih => rw [disentangle, ih, List.map_cons]

theorem length_disentangle (tolerance : α) (amps : List (Amplitude α)) :
    (disentangle tolerance amps).length = amps.length / 2 := by
  rw [disentangle_eq_map, List.length_map, length_neighbours]

/-- **Which pair an entry belongs to.** -/
theorem getElem?_disentangle (tolerance : α) {amps : List (Amplitude α)} {r : ℕ}
    (h : 2 * r + 1 < amps.length) : (disentangle tolerance amps)[r]? = some
      (BlochAngles.ofPair tolerance (amps.getD (2 * r) 0) (amps.getD (2 * r + 1) 0)).opposite := by
  rw [disentangle_eq_map, List.getElem?_map, getElem?_neighbours 0 amps h]
  rfl

theorem exists_of_mem_disentangle {tolerance : α} {amps : List (Amplitude α)} {p : BlochAngles α}
    (h : p ∈ disentangle tolerance amps) : ∃ (r : ℕ) (hr : 2 * r + 1 < amps.length),
      p = (BlochAngles.ofPair tolerance amps[2 * r] amps[2 * r + 1]).opposite := by
  obtain ⟨r, hr⟩ := List.mem_iff_getElem?.mp h
  have hlt : 2 * r + 1 < amps.length := by
    have hlength := (List.getElem?_eq_some_iff.mp hr).1
    rw [length_disentangle] at hlength
    omega
  refine ⟨r, hlt, ?_⟩
  rw [getElem?_disentangle tolerance hlt, List.getD_eq_getElem _ _ (by omega),
    List.getD_eq_getElem _ _ hlt] at hr
  exact (Option.some.inj hr).symm

/-- The amplitudes that are left when the least significant qubit has been disentangled. -/
def remaining (tolerance : α) (amps : List (Amplitude α)) : List (Amplitude α) :=
  (disentangle tolerance amps).map BlochAngles.remaining

theorem length_remaining (tolerance : α) {amps : List (Amplitude α)} {count : ℕ}
    (h : amps.length = 2 ^ (count + 1)) : (remaining tolerance amps).length = 2 ^ count := by
  rw [remaining, List.length_map, length_disentangle, h, Nat.pow_succ]
  omega

/-- The pairs of amplitudes that are met when a number of qubits is disentangled. -/
def pairsMet (tolerance : α) : ℕ → List (Amplitude α) → List (Amplitude α × Amplitude α)
  | 0, _ => []
  | count + 1, amps => neighbours amps ++ pairsMet tolerance count (remaining tolerance amps)

end Disentangle

/-- A pair of zeros or one that is not shorter than the tolerance. -/
def IsClear (tolerance : ℝ) (p : Amplitude ℝ × Amplitude ℝ) : Prop :=
  p = (0, 0) ∨ tolerance ≤ pairLength p.1 p.2

/-- The weight that is lost with a pair, because a short pair counts as zero. -/
noncomputable def lostWeight (tolerance : ℝ) (p : Amplitude ℝ × Amplitude ℝ) : ℝ :=
  if pairLength p.1 p.2 < tolerance then pairLength p.1 p.2 ^ 2 else 0

theorem lostWeight_nonneg (tolerance : ℝ) (p : Amplitude ℝ × Amplitude ℝ) :
    0 ≤ lostWeight tolerance p := by
  unfold lostWeight
  split
  · exact sq_nonneg _
  · exact le_rfl

theorem lostWeight_le (tolerance : ℝ) (p : Amplitude ℝ × Amplitude ℝ) :
    lostWeight tolerance p ≤ tolerance ^ 2 := by
  unfold lostWeight
  split
  · next h => exact pow_le_pow_left₀ (Real.sqrt_nonneg _) h.le 2
  · exact sq_nonneg tolerance

theorem lostWeight_of_isClear {tolerance : ℝ} {p : Amplitude ℝ × Amplitude ℝ}
    (h : IsClear tolerance p) : lostWeight tolerance p = 0 := by
  unfold lostWeight
  rcases h with rfl | h
  · rw [pairLength_sq, Amplitude.toComplex_zero, norm_zero]
    simp
  · exact if_neg (not_lt.mpr h)

theorem sum_lostWeight_nonneg (tolerance : ℝ) (pairs : List (Amplitude ℝ × Amplitude ℝ)) :
    0 ≤ (pairs.map (lostWeight tolerance)).sum := by
  refine List.sum_nonneg fun x hx => ?_
  obtain ⟨p, -, rfl⟩ := List.mem_map.mp hx
  exact lostWeight_nonneg tolerance p

theorem sum_lostWeight_le (tolerance : ℝ) (pairs : List (Amplitude ℝ × Amplitude ℝ)) :
    (pairs.map (lostWeight tolerance)).sum ≤ pairs.length * tolerance ^ 2 := by
  have hsum := List.sum_le_card_nsmul (pairs.map (lostWeight tolerance)) (tolerance ^ 2) (by
    intro x hx
    obtain ⟨p, -, rfl⟩ := List.mem_map.mp hx
    exact lostWeight_le tolerance p)
  rwa [List.length_map, nsmul_eq_mul] at hsum

theorem sum_lostWeight_of_isClear {tolerance : ℝ} {pairs : List (Amplitude ℝ × Amplitude ℝ)}
    (h : ∀ p ∈ pairs, IsClear tolerance p) : (pairs.map (lostWeight tolerance)).sum = 0 := by
  refine List.sum_eq_zero fun x hx => ?_
  obtain ⟨p, hp, rfl⟩ := List.mem_map.mp hx
  exact lostWeight_of_isClear (h p hp)

/-- **What is left of a pair and what is lost with it** have the weight of the pair. -/
theorem norm_remaining_sq_add_lostWeight (tolerance : ℝ) (a b : Amplitude ℝ) :
    ‖(BlochAngles.ofPair tolerance a b).opposite.remaining.toComplex‖ ^ 2 +
      lostWeight tolerance (a, b) = ‖a.toComplex‖ ^ 2 + ‖b.toComplex‖ ^ 2 := by
  rw [← pairLength_sq, lostWeight]
  dsimp only
  split
  · next hshort =>
    rw [BlochAngles.ofPair_of_short hshort]
    simp [BlochAngles.opposite]
  · next hlong =>
    rw [BlochAngles.ofPair_of_long (not_lt.mp hlong), add_zero]
    dsimp only [BlochAngles.opposite]
    rw [Amplitude.toComplex_polar, norm_mul, norm_exp_ofReal_mul_I, mul_one, norm_real,
      Real.norm_eq_abs, sq_abs]

/-- **Disentangling a qubit** leaves the weight that is not lost with the pairs. -/
theorem weight_remaining_add_lostWeight (tolerance : ℝ) {amps : List (Amplitude ℝ)}
    (hlen : 2 ∣ amps.length) :
    Amplitude.weight (remaining tolerance amps) +
      ((neighbours amps).map (lostWeight tolerance)).sum = Amplitude.weight amps := by
  rw [Amplitude.weight_eq_sum, Amplitude.weight_eq_sum, ← sum_map_neighbours _ _ hlen, remaining,
    disentangle_eq_map, List.map_map, List.map_map, ← List.sum_map_add]
  congr 1
  exact List.map_congr_left fun p _ => norm_remaining_sq_add_lostWeight tolerance p.1 p.2

end StatePrep
