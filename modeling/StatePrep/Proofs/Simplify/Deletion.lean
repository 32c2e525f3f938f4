import Mathlib.Analysis.SpecialFunctions.Trigonometric.Bounds
import StatePrep.Proofs.Simplify.Leaves
import StatePrep.Proofs.State.Placed

/-! # What leaving out small rotations costs

A rotation by `theta` moves a state by at most `|theta| / 2` times its length
(`norm_turn_sub_le`). The operations after it keep lengths, so when zero rotations are left
out of a sequence their costs add up (`norm_actAll_sub_filter_le`). As cancelling flips costs
nothing, the same bound holds for simplification (`norm_actAll_sub_simplify_le`). -/

namespace StatePrep

open Complex Operation ZeroRotation

variable {n : ℕ}

/-! ### One rotation -/

theorem turn_add_turn_neg (axis : Axis) (t : ℕ) (theta : ℝ) (f : Wave) :
    turn axis t (fun _ => theta) f + turn axis t (fun _ => -theta) f =
      (2 * Real.cos (theta / 2) : ℂ) • f := by
  have hstay : ∀ b, (axis.matrix theta).stay b + (axis.matrix (-theta)).stay b =
      2 * Real.cos (theta / 2) := by
    intro b
    cases axis with
    | x => rw [stay_rx, stay_rx, neg_div, Real.cos_neg]; ring
    | y => rw [stay_ry, stay_ry, neg_div, Real.cos_neg]; ring
    | z =>
      rw [matrix_neg_stay (by decide), stay_rz, stay_rz, ofReal_cos, two_cos]
      cases b <;> simp [neg_div, add_comm]
  have hcross : ∀ b, (axis.matrix theta).cross b + (axis.matrix (-theta)).cross b = 0 := by
    intro b
    cases axis with
    | x => rw [cross_rx, cross_rx, neg_div, Real.sin_neg]; push_cast; ring
    | y => rw [cross_ry, cross_ry, neg_div, Real.sin_neg]; cases b <;> simp
    | z => rw [cross_rz, cross_rz, add_zero]
  funext i
  rw [Pi.add_apply, turn, turn, mix_apply, mix_apply, Pi.smul_apply, smul_eq_mul]
  linear_combination f i * hstay (i.testBit t) + f (partner t i) * hcross (i.testBit t)

/-- **A rotation moves a state by at most half its angle.** -/
theorem norm_turn_sub_le (axis : Axis) {t : ℕ} (ht : t < n) (theta : ℝ) (f : Wave) :
    ‖below n (turn axis t (fun _ => theta) f) - below n f‖ ≤ |theta| / 2 * ‖below n f‖ := by
  have hconst : Ignores t fun _ => theta := fun _ => rfl
  -- the overlap of the image with the state has the cosine of half the angle as its real part
  have hre : (overlap n (turn axis t (fun _ => theta) f) f).re =
      Real.cos (theta / 2) * ‖below n f‖ ^ 2 := by
    have hsum : overlap n f (turn axis t (fun _ => theta) f) +
        overlap n (turn axis t (fun _ => theta) f) f =
          (2 * Real.cos (theta / 2) * ‖below n f‖ ^ 2 : ℝ) := by
      rw [overlap_turn ht hconst, ← overlap_add, turn_add_turn_neg, overlap_smul, overlap_self]
      push_cast
      rfl
    have hparts := congrArg re hsum
    rw [add_re, ofReal_re, ← conj_overlap, conj_re] at hparts
    linarith
  have hsq : ‖below n (turn axis t (fun _ => theta) f) - below n f‖ ^ 2 ≤
      (|theta| / 2 * ‖below n f‖) ^ 2 := by
    have hcos := Real.one_sub_sq_div_two_le_cos (x := theta / 2)
    rw [norm_sub_sq_eq, norm_turn ht hconst, hre, mul_pow, div_pow, sq_abs]
    nlinarith [sq_nonneg ‖below n f‖]
  exact (sq_le_sq₀ (norm_nonneg _) (by positivity)).mp hsq

/-! ### Zero rotations in a sequence -/

theorem isZeroRotation_iff {s : Settings ℝ} (hpos : 0 < s.tolerance) {op : Operation ℝ} :
    isZeroRotation s op = true ↔ ∃ theta, op.gate.angle? = some theta ∧ |theta| < s.tolerance := by
  unfold isZeroRotation
  cases op.gate.angle? with
  | none => simp
  | some theta =>
    have hflush : s.flush theta = 0 ↔ |theta| < s.tolerance := by
      unfold Settings.flush
      change (if |theta| < s.tolerance then (0 : ℝ) else theta) = 0 ↔ |theta| < s.tolerance
      split
      · next h => exact ⟨fun _ => h, fun _ => rfl⟩
      · next h =>
        refine ⟨fun h0 => absurd ?_ h, fun h' => absurd h' h⟩
        rw [h0, abs_zero]
        exact hpos
    change decide (s.flush theta = 0) = true ↔ _
    rw [decide_eq_true_iff, hflush]
    simp

theorem angle?_eq_zero_of_clear {s : Settings ℝ} (hpos : 0 < s.tolerance) {op : Operation ℝ}
    (h : ∀ theta, op.gate.angle? = some theta → theta = 0 ∨ s.tolerance ≤ |theta|)
    (hzero : isZeroRotation s op = true) : op.gate.angle? = some 0 := by
  obtain ⟨theta, hangle, hlt⟩ := (isZeroRotation_iff hpos).mp hzero
  rcases h theta hangle with rfl | hle
  · exact hangle
  · exact absurd hlt (not_lt.mpr hle)

theorem exists_rotation_of_angle? {g : Gate ℝ} {theta : ℝ} (h : g.angle? = some theta) :
    ∃ axis : Axis, g = axis.rotation theta := by
  cases g with
  | rx a => exact ⟨.x, congrArg Gate.rx (Option.some.inj h)⟩
  | ry a => exact ⟨.y, congrArg Gate.ry (Option.some.inj h)⟩
  | rz a => exact ⟨.z, congrArg Gate.rz (Option.some.inj h)⟩
  | x => cases h
  | u _ _ _ => cases h
  | cx => cases h

theorem act_of_angle_zero {op : Operation ℝ} (h : op.gate.angle? = some 0) : op.act = 1 := by
  obtain ⟨g, qs⟩ := op
  obtain ⟨axis, rfl⟩ := exists_rotation_of_angle? h
  rcases qs with _ | ⟨q, _ | ⟨r, qs⟩⟩
  · unfold act
    rw [matrix?_rotation]
  · exact (act_rotation axis 0 q).trans (turn_zero axis q.bit)
  · unfold act
    rw [matrix?_rotation]

theorem norm_act_sub_le_of_isZeroRotation {s : Settings ℝ} (hpos : 0 < s.tolerance)
    {op : Operation ℝ} (h : op.Fits n) (hzero : isZeroRotation s op = true) (f : Wave) :
    ‖below n (op.act f) - below n f‖ ≤ s.tolerance / 2 * ‖below n f‖ := by
  obtain ⟨theta, hangle, hlt⟩ := (isZeroRotation_iff hpos).mp hzero
  obtain ⟨g, qs⟩ := op
  obtain ⟨axis, rfl⟩ := exists_rotation_of_angle? hangle
  have harity : (axis.rotation theta).arity = 1 := by cases axis <;> rfl
  obtain ⟨q, rfl⟩ := List.length_eq_one_iff.mp (h.1.trans harity)
  have hact : act ⟨axis.rotation theta, [q]⟩ = turn axis q.bit fun _ => theta :=
    act_rotation axis theta q
  rw [hact]
  refine (norm_turn_sub_le axis (h.2 q (by simp)) theta f).trans ?_
  exact mul_le_mul_of_nonneg_right (by linarith) (norm_nonneg _)

theorem actAll_filter_isZeroRotation {s : Settings ℝ} {ops : List (Operation ℝ)}
    (h : ∀ op ∈ ops, isZeroRotation s op = true → op.gate.angle? = some 0) :
    actAll (ops.filter fun op => !isZeroRotation s op) = actAll ops := by
  induction ops with
  | nil => rfl
  | cons op ops ih =>
    have hlater := ih fun op' hop' => h op' (by simp [hop'])
    by_cases hzero : isZeroRotation s op = true
    · rw [List.filter_cons_of_neg (by simp [hzero]), hlater, actAll,
        act_of_angle_zero (h op (by simp) hzero), mul_one]
    · rw [List.filter_cons_of_pos (by simp [hzero]), actAll, actAll, hlater]

theorem norm_actAll_sub_filter_le {s : Settings ℝ} (hpos : 0 < s.tolerance)
    {ops : List (Operation ℝ)} (h : ∀ op ∈ ops, op.Fits n) (f : Wave) :
    ‖below n (actAll ops f) -
        below n (actAll (ops.filter fun op => !isZeroRotation s op) f)‖ ≤
      ops.countP (isZeroRotation s) * (s.tolerance / 2) * ‖below n f‖ := by
  induction ops generalizing f with
  | nil => simp
  | cons op ops ih =>
    have hop : op.Fits n := h op (by simp)
    have hops : ∀ op ∈ ops, op.Fits n := fun op' hop' => h op' (by simp [hop'])
    rw [actAll, Module.End.mul_apply]
    by_cases hzero : isZeroRotation s op = true
    · rw [List.filter_cons_of_neg (by simp [hzero]), List.countP_cons_of_pos hzero]
      have hmoved : ‖below n (actAll ops (op.act f)) - below n (actAll ops f)‖ ≤
          s.tolerance / 2 * ‖below n f‖ := by
        rw [← map_sub, ← map_sub, norm_actAll hops, map_sub]
        exact norm_act_sub_le_of_isZeroRotation hpos hop hzero f
      have hrest := ih hops f
      have htriangle := norm_sub_le_norm_sub_add_norm_sub (below n (actAll ops (op.act f)))
        (below n (actAll ops f))
        (below n (actAll (ops.filter fun op => !isZeroRotation s op) f))
      push_cast
      linarith
    · rw [List.filter_cons_of_pos (by simp [hzero]), List.countP_cons_of_neg hzero, actAll,
        Module.End.mul_apply]
      have hrest := ih hops (op.act f)
      rwa [norm_act hop] at hrest

/-- **What simplification costs**: half the tolerance for each rotation taken out. -/
theorem norm_actAll_sub_simplify_le {s : Settings ℝ} (hpos : 0 < s.tolerance) {c : Composite ℝ}
    (h : ∀ op ∈ GateTree.flattenAll c.children, op.Fits n) (f : Wave) :
    ‖below n (actAll (GateTree.flattenAll c.children) f) -
        below n (actAll (GateTree.flattenAll (c.simplify s).1.children) f)‖ ≤
      (c.simplify s).2.rotations * (s.tolerance / 2) * ‖below n f‖ := by
  rw [flattenAll_simplify, actAll_freeReduce, rotations_simplify]
  exact norm_actAll_sub_filter_le hpos h f

/-! ### States -/

/-- **Simplification is sound.** Where a composite is applied to its end, so is the simplified one,
and the state it leads to is at most half the tolerance times the length of the state before away,
for each rotation taken out. If the rotations taken out had no angle at all, it is the same state.
-/
theorem distance_simplify_le {s : Settings ℝ} (hpos : 0 < s.tolerance) {c : Composite ℝ}
    {chi w : QuantumState ℝ n} (h : chi.applyTree c.toTree = (w, none)) :
    ∃ w', chi.applyTree (c.simplify s).1.toTree = (w', none) ∧
      w.distance w' ≤ (c.simplify s).2.rotations * (s.tolerance / 2) * chi.norm ∧
      ((∀ op ∈ c.toTree.leaves, isZeroRotation s op = true → op.gate.angle? = some 0) →
        w' = w) := by
  obtain ⟨hfits, hwave⟩ := QuantumState.applyTree_eq_iff.mp h
  have hfits' : ∀ op ∈ (c.simplify s).1.toTree.flatten, op.Fits n :=
    fun op hop => hfits op ((flattenAll_simplify_sublist s c).subset hop)
  obtain ⟨w', hw', hwave'⟩ := QuantumState.applyTree_of_fits hfits' chi
  refine ⟨w', hw', ?_, ?_⟩
  · rw [QuantumState.distance_eq, QuantumState.norm_eq_below, hwave, hwave']
    exact norm_actAll_sub_simplify_le hpos hfits chi.wave
  · intro hzero
    rw [GateTree.leaves_eq_flatten] at hzero
    have hleaves : (c.simplify s).1.toTree.flatten =
        freeReduce (c.toTree.flatten.filter fun op => !isZeroRotation s op) :=
      flattenAll_simplify s c
    apply QuantumState.wave_injective
    rw [hwave', hleaves, actAll_freeReduce, actAll_filter_isZeroRotation hzero, hwave]

/-- A small rotation between two flips of a pair, which meet when it is gone. -/
theorem distance_simplify_le_between_flips :
    let c : Composite ℝ := ⟨"root", [.composite "left" [.leaf (.cx ⟨0⟩ ⟨1⟩)],
      .leaf (.rotation .y (1 / 2) ⟨1⟩), .composite "right" [.leaf (.cx ⟨0⟩ ⟨1⟩)],
      .leaf (.single (.u 1 2 3) ⟨0⟩)]⟩
    let chi : QuantumState ℝ 2 := .zero 2
    (c.simplify ⟨1, true⟩).2.rotations = 1 ∧ ∃ w w', chi.applyTree c.toTree = (w, none) ∧
      chi.applyTree (c.simplify ⟨1, true⟩).1.toTree = (w', none) ∧
        w.distance w' ≤ (c.simplify ⟨1, true⟩).2.rotations * (1 / 2) * chi.norm := by
  intro c chi
  have hleaves : c.toTree.flatten = [.cx ⟨0⟩ ⟨1⟩, .rotation .y (1 / 2) ⟨1⟩, .cx ⟨0⟩ ⟨1⟩,
    .single (.u 1 2 3) ⟨0⟩] := rfl
  have hzero : isZeroRotation ⟨1, true⟩ (rotation .y (1 / 2 : ℝ) ⟨1⟩) = true :=
    (isZeroRotation_iff one_pos).mpr ⟨1 / 2, rfl, by norm_num [abs_of_pos]⟩
  obtain ⟨w, hw⟩ := QuantumState.exists_applyTree_iff_fits (t := c.toTree) (v := chi).mpr (by
    rw [hleaves]
    decide)
  obtain ⟨w', hw', hle, -⟩ := distance_simplify_le (s := ⟨1, true⟩) one_pos hw
  refine ⟨?_, w, w', hw, hw', hle⟩
  have hcount : (c.simplify ⟨1, true⟩).2.rotations =
      c.toTree.flatten.countP (isZeroRotation ⟨1, true⟩) := rotations_simplify _ c
  rw [hcount, hleaves, List.countP_cons_of_neg (by decide), List.countP_cons_of_pos hzero]
  rfl

end StatePrep
