import StatePrep.Proofs.Simplify.Deletion
import StatePrep.Proofs.State.Placed
import StatePrep.Proofs.Synthesis.Disentangler

/-! # What a preparation does

`prepare_eq_ok_iff` says when a preparation succeeds and of what it is made.

* `prepare_applyTree`: if all pairs met are clear and no angle is small, the prepared tree puts the
  amplitudes wanted on the register, times the phase reported and over their weight, whatever the
  other qubits hold.
* `distance_placed_le`: without any assumption on pairs and angles, the distance from the state
  wanted is at most the tolerance for each pair met and half of it, times the length of the
  amplitudes, for each rotation taken out. -/

namespace StatePrep

open Operation Complex ComplexConjugate

/-! ### Success -/

section Success

variable {α : Type} [Analytic α]

theorem not_shape_iff {length : ℕ} :
    (decide (length < 2) || !isPowerOfTwo length) = false ↔
      0 < length.log2 ∧ length = 2 ^ length.log2 := by
  rw [Bool.or_eq_false_iff, decide_eq_false_iff_not, Bool.not_eq_false', isPowerOfTwo, beq_iff_eq]
  constructor
  · rintro ⟨hlen, hpower⟩
    refine ⟨Nat.pos_of_ne_zero fun hzero => ?_, hpower⟩
    rw [hzero, Nat.pow_zero] at hpower
    omega
  · rintro ⟨hpos, hpower⟩
    refine ⟨?_, hpower⟩
    have := Nat.pow_le_pow_right Nat.two_pos hpos
    omega

theorem checkInput_eq_ok_iff {s : Settings α} {amps : List (Amplitude α)} {register : List Qubit}
    {width : ℕ} : Preparation.checkInput s amps register = .ok width ↔
      0 < register.length ∧ amps.length = 2 ^ register.length ∧
        s.agree (Amplitude.weight amps) 1 = true ∧ width = register.length := by
  unfold Preparation.checkInput
  dsimp only
  constructor
  · intro h
    split at h
    · cases h
    · next hshape =>
      obtain ⟨hpos, hpower⟩ := not_shape_iff.mp (Bool.eq_false_iff.mpr hshape)
      split at h
      · cases h
      · next hsize =>
        rw [not_not] at hsize
        rw [hsize]
        split at h
        · cases h
        · next hweight =>
          obtain rfl := Except.ok.inj h
          exact ⟨hpos, hpower, by simpa using hweight, rfl⟩
  · rintro ⟨hpos, hlen, hweight, rfl⟩
    have hlog : amps.length.log2 = register.length := by rw [hlen, Nat.log2_two_pow]
    have hshape := not_shape_iff.mpr ⟨hlog.symm ▸ hpos, hlog.symm ▸ hlen⟩
    rw [if_neg (by rw [hshape]; decide), hlog, if_neg (not_not.mpr rfl), hweight]
    rfl

theorem check_eq_ok_iff {s : Settings α} : s.check = .ok () ↔ s.isUsable = true := by
  unfold Settings.check
  split
  · next h => exact ⟨fun _ => h, fun _ => rfl⟩
  · next h => exact ⟨fun h' => (nomatch h'), fun h' => absurd h' h⟩

/-- **When a preparation succeeds**, and of what it is made. -/
theorem prepare_eq_ok_iff {s : Settings α} {amps : List (Amplitude α)} {register : List Qubit}
    {p : Preparation α} : prepare s amps register = .ok p ↔
      s.isUsable = true ∧ 0 < register.length ∧ amps.length = 2 ^ register.length ∧
        s.agree (Amplitude.weight amps) 1 = true ∧
          ∃ trees left,
            Preparation.disentangler s.tolerance register register.length 0 amps =
              .ok (trees, left) ∧
            p = Preparation.ofDisentangler s register.length trees left := by
  unfold prepare
  constructor
  · intro h
    obtain ⟨⟨⟩, hcheck, h⟩ := bind_eq_ok_iff.mp h
    obtain ⟨width, hinput, h⟩ := bind_eq_ok_iff.mp h
    obtain ⟨⟨trees, left⟩, htrees, h⟩ := bind_eq_ok_iff.mp h
    obtain ⟨hpos, hlen, hweight, rfl⟩ := checkInput_eq_ok_iff.mp hinput
    exact ⟨check_eq_ok_iff.mp hcheck, hpos, hlen, hweight, trees, left,
      mapError_eq_ok_iff.mp htrees, (Except.ok.inj h).symm⟩
  · rintro ⟨husable, hpos, hlen, hweight, trees, left, htrees, rfl⟩
    have hinput := checkInput_eq_ok_iff.mpr ⟨hpos, hlen, hweight, rfl⟩
    exact bind_eq_ok_iff.mpr ⟨(), check_eq_ok_iff.mpr husable, bind_eq_ok_iff.mpr
      ⟨_, hinput, bind_eq_ok_iff.mpr ⟨_, mapError_eq_ok_iff.mpr htrees, rfl⟩⟩⟩

end Success

/-! ### The prepared tree -/

/-- The operations of the multiplexors that the settings keep. -/
def keptOperations {α : Type} [Scalar α] (s : Settings α) (trees : List (GateTree α)) :
    List (Operation α) :=
  if s.simplify then
    freeReduce ((GateTree.flattenAll trees).filter fun op => !ZeroRotation.isZeroRotation s op)
  else GateTree.flattenAll trees

/-- **The prepared tree undoes the operations kept.** -/
theorem flatten_tree_ofDisentangler {α : Type} [Analytic α] (s : Settings α) (width : ℕ)
    (trees : List (GateTree α)) (left : List (Amplitude α)) :
    (Preparation.ofDisentangler s width trees left).tree.flatten =
      ((keptOperations s trees).map inverse).reverse := by
  unfold Preparation.ofDisentangler keptOperations
  dsimp only
  rw [GateTree.flatten_inverse, Composite.toTree, GateTree.flatten]
  split
  · rw [flattenAll_simplify]
  · rfl

variable {s : Settings ℝ} {trees : List (GateTree ℝ)} {n : ℕ}

theorem fits_keptOperations (h : ∀ op ∈ GateTree.flattenAll trees, op.Fits n) :
    ∀ op ∈ keptOperations s trees, op.Fits n := by
  intro op hop
  unfold keptOperations at hop
  split at hop
  · exact h op (List.mem_of_mem_filter ((freeReduce_sublist _).subset hop))
  · exact h op hop

/-- **What keeping only these costs.** -/
theorem norm_actAll_sub_keptOperations_le (hpos : 0 < s.tolerance)
    (h : ∀ op ∈ GateTree.flattenAll trees, op.Fits n) (width : ℕ) (left : List (Amplitude ℝ))
    (f : Wave) :
    ‖below n (actAll (GateTree.flattenAll trees) f) -
        below n (actAll (keptOperations s trees) f)‖ ≤
      (Preparation.ofDisentangler s width trees left).stats.rotations * (s.tolerance / 2) *
        ‖below n f‖ := by
  have hsimplified := norm_actAll_sub_simplify_le hpos (c := ⟨"initialize", trees⟩) h f
  rw [flattenAll_simplify] at hsimplified
  unfold Preparation.ofDisentangler keptOperations
  dsimp only
  cases s.simplify
  · rw [if_neg (by decide), if_neg (by decide), sub_self, norm_zero, SimplifyStats.unchanged,
      Nat.cast_zero, zero_mul, zero_mul]
  · rw [if_pos rfl, if_pos rfl]
    exact hsimplified

/-! ### The prepared state -/

/-- The multiplexors of these amplitudes rotate by nothing or by the tolerance at least. -/
def ClearAngles (tolerance : ℝ) (register : List Qubit) (amps : List (Amplitude ℝ)) : Prop :=
  ∀ trees left,
    Preparation.disentangler tolerance register register.length 0 amps = .ok (trees, left) →
      ∀ op ∈ GateTree.flattenAll trees, ∀ theta, op.gate.angle? = some theta →
        theta = 0 ∨ tolerance ≤ |theta|

/-! ### An entangled pair -/

/-- Two qubits that are both zero or both one, with the same amplitude for both. -/
noncomputable def bellPair (x : ℝ) : List (Amplitude ℝ) := [⟨x, 0⟩, ⟨0, 0⟩, ⟨0, 0⟩, ⟨x, 0⟩]

theorem weight_bellPair (x : ℝ) : Amplitude.weight (bellPair x) = x ^ 2 + x ^ 2 := by
  rw [Amplitude.weight_eq_sum, bellPair]
  simp only [List.map_cons, List.map_nil, List.sum_cons, List.sum_nil, Amplitude.toComplex_mk_zero,
    norm_real, Real.norm_eq_abs, sq_abs]
  ring

/-- Two equal magnitudes make an angle of an eighth of a turn. -/
theorem arg_mk_self {x : ℝ} (hx : 0 < x) : Complex.arg ⟨x, x⟩ = Real.pi / 4 := by
  have hscale : x * √2 * (√2 / 2) = x := by
    rw [mul_assoc, mul_div_assoc', Real.mul_self_sqrt zero_le_two, div_self two_ne_zero, mul_one]
  have hpoint : (⟨x, x⟩ : ℂ) =
      (x * √2 : ℝ) * (cos (Real.pi / 4 : ℝ) + sin (Real.pi / 4 : ℝ) * I) := by
    rw [← ofReal_cos, ← ofReal_sin, Real.cos_pi_div_four, Real.sin_pi_div_four, mul_add,
      ← mul_assoc, ← ofReal_mul, hscale]
    exact mk_eq_add_mul_I _ _
  rw [hpoint, arg_mul_cos_add_sin_mul_I (by positivity)]
  constructor <;> linarith [Real.pi_pos]

section BellPair

variable {tolerance x : ℝ} (hpos : 0 < tolerance) (hx : tolerance ≤ x)
include hpos hx

theorem disentangle_bellPair : disentangle tolerance (bellPair x) =
    [⟨-0, -0, ⟨x, 0⟩⟩, ⟨-Real.pi, -0, ⟨x, 0⟩⟩] := by
  have hxpos : 0 < x := hpos.trans_le hx
  have hargZero : Complex.arg ⟨x, 0⟩ = 0 := arg_ofReal_of_nonneg hxpos.le
  have hargOne : Complex.arg ⟨0, x⟩ = Real.pi / 2 := arg_eq_pi_div_two_iff.mpr ⟨rfl, hxpos⟩
  have hzero : BlochAngles.ofPair tolerance ⟨x, 0⟩ ⟨0, 0⟩ = ⟨0, 0, ⟨x, 0⟩⟩ := by
    rw [BlochAngles.ofPair_of_nonneg hxpos.le le_rfl (hx.trans (le_pairLength_left x 0)), hargZero,
      pairLength_mk_zero, add_zero, zero_pow two_ne_zero, add_zero, Real.sqrt_sq hxpos.le]
  have hone : BlochAngles.ofPair tolerance ⟨0, 0⟩ ⟨x, 0⟩ = ⟨Real.pi, 0, ⟨x, 0⟩⟩ := by
    rw [BlochAngles.ofPair_of_nonneg le_rfl hxpos.le (hx.trans (le_pairLength_right 0 x)), hargOne,
      pairLength_mk_zero, add_halves, zero_pow two_ne_zero, zero_add, Real.sqrt_sq hxpos.le]
  change [(BlochAngles.ofPair _ _ _).opposite, (BlochAngles.ofPair _ _ _).opposite] = _
  rw [hzero, hone]
  rfl

theorem disentangle_remaining_bellPair :
    disentangle tolerance (remaining tolerance (bellPair x)) =
      [⟨-(Real.pi / 2), -0, ⟨pairLength ⟨x, 0⟩ ⟨x, 0⟩, 0⟩⟩] := by
  have hxpos : 0 < x := hpos.trans_le hx
  have hsum : Real.pi / 4 + Real.pi / 4 = Real.pi / 2 := by ring
  rw [remaining, disentangle_bellPair hpos hx]
  change [(BlochAngles.ofPair _ _ _).opposite] = _
  rw [BlochAngles.ofPair_of_nonneg hxpos.le hxpos.le (hx.trans (le_pairLength_left x x)),
    arg_mk_self hxpos, hsum]
  rfl

theorem isClear_of_mem_pairsMet_bellPair :
    ∀ pair ∈ pairsMet tolerance 2 (bellPair x), IsClear tolerance pair := by
  intro pair hpair
  rw [pairsMet, pairsMet, pairsMet, remaining, disentangle_bellPair hpos hx] at hpair
  change pair ∈ [((⟨x, 0⟩, ⟨0, 0⟩) : Amplitude ℝ × Amplitude ℝ), (⟨0, 0⟩, ⟨x, 0⟩),
    (⟨x, 0⟩, ⟨x, 0⟩)] at hpair
  simp only [List.mem_cons, List.not_mem_nil, or_false] at hpair
  right
  rcases hpair with rfl | rfl | rfl
  · exact hx.trans (le_pairLength_left x 0)
  · exact hx.trans (le_pairLength_right 0 x)
  · exact hx.trans (le_pairLength_left x x)

end BellPair

theorem eighth_le_sqrt_two_div_two : (1 / 8 : ℝ) ≤ √2 / 2 := by
  have hsqrt : (1 : ℝ) ≤ √2 := Real.one_le_sqrt.mpr one_le_two
  linarith

/-- The multiplexor about the `y` axis rotates the lower qubit by a quarter turn one way and then by
one the other way, with a flip after each of them. -/
theorem clearAngles_bellPair : ClearAngles (1 / 8) [⟨3⟩, ⟨1⟩] (bellPair (√2 / 2)) := by
  intro trees left htrees op hop theta hangle
  obtain ⟨z, y, later, hz, hy, hlater, rfl⟩ := disentangler_succ_eq_ok_iff.mp htrees
  obtain ⟨z', y', last, hz', hy', hlast, rfl⟩ := disentangler_succ_eq_ok_iff.mp hlater
  have htheta : theta ∈ (GateTree.flattenAll (z :: y :: z' :: y' :: last)).filterMap
      fun op => op.gate.angle? := List.mem_filterMap.mpr ⟨op, hop, hangle⟩
  rw [disentangle_bellPair (by norm_num) eighth_le_sqrt_two_div_two] at hz hy
  rw [disentangle_remaining_bellPair (by norm_num) eighth_le_sqrt_two_div_two] at hz' hy'
  obtain rfl := Except.ok.inj hz
  obtain rfl := Except.ok.inj hy
  obtain rfl := Except.ok.inj hz'
  obtain rfl := Except.ok.inj hy'
  obtain ⟨rfl, -⟩ := Prod.mk.inj (Except.ok.inj hlast)
  change theta ∈ [Scalar.half (-0 + -0), Scalar.half (-0 - -0), Scalar.half (-0 + -Real.pi),
    Scalar.half (-0 - -Real.pi), -0, -(Real.pi / 2)] at htheta
  have hpi := Real.two_le_pi
  simp only [List.mem_cons, List.not_mem_nil, or_false, half_real, neg_zero, add_zero, sub_zero,
    zero_div, zero_add, zero_sub, neg_neg, neg_div] at htheta
  have hquarter : 1 / 8 ≤ |Real.pi / 2| := by
    rw [abs_of_pos (by linarith)]
    linarith
  rcases htheta with rfl | rfl | rfl | rfl | rfl | rfl
  · exact .inl rfl
  · exact .inl rfl
  · exact .inr ((abs_neg (Real.pi / 2)).symm ▸ hquarter)
  · exact .inr hquarter
  · exact .inl rfl
  · exact .inr ((abs_neg (Real.pi / 2)).symm ▸ hquarter)

/-! ### Prepared trees and their states -/

section Prepared

variable {amps : List (Amplitude ℝ)} {register : List Qubit} {p : Preparation ℝ}

theorem exists_of_prepare (h : prepare s amps register = .ok p) (hnodup : register.Nodup) :
    0 < s.tolerance ∧ amps.length = 2 ^ register.length ∧
      ∃ trees, Preparation.disentangler s.tolerance register register.length 0 amps =
          .ok (trees, leftOver s.tolerance register.length amps) ∧
        p = Preparation.ofDisentangler s register.length trees
          (leftOver s.tolerance register.length amps) ∧
        (∀ n, (∀ q ∈ register, q.bit < n) → ∀ op ∈ GateTree.flattenAll trees, op.Fits n) ∧
        actAll (GateTree.flattenAll trees) = collapseAll s.tolerance register amps := by
  obtain ⟨husable, -, hlen, -, trees, left, htrees, rfl⟩ := prepare_eq_ok_iff.mp h
  obtain ⟨trees', htrees', hfits, hact⟩ :=
    disentangler_eq hnodup s.tolerance register.length 0 amps (Nat.zero_add _).symm hlen
  rw [htrees'] at htrees
  obtain ⟨rfl, rfl⟩ := Prod.mk.inj (Except.ok.inj htrees)
  exact ⟨Settings.isUsable_iff.mp husable, hlen, trees', htrees', rfl, hfits, hact⟩

theorem exists_prepare (hpos : 0 < s.tolerance) (hnodup : register.Nodup)
    (hwidth : 0 < register.length) (hlen : amps.length = 2 ^ register.length)
    (hweight : |Amplitude.weight amps - 1| ≤ s.tolerance) :
    ∃ p, prepare s amps register = .ok p := by
  obtain ⟨trees, htrees, -⟩ :=
    disentangler_eq hnodup s.tolerance register.length 0 amps (Nat.zero_add _).symm hlen
  exact ⟨_, prepare_eq_ok_iff.mpr ⟨Settings.isUsable_iff.mpr hpos, hwidth, hlen,
    Settings.agree_iff.mpr hweight, _, _, htrees, rfl⟩⟩

theorem toComplex_phase_ofDisentangler (width : ℕ) {left : List (Amplitude ℝ)}
    (h : left.length = 1) :
    (Preparation.ofDisentangler s width trees left).phase.toComplex =
      conj (amplitudeAt left 0) := by
  obtain ⟨a, rfl⟩ := List.length_eq_one_iff.mp h
  rfl

/-- **The prepared tree is applied**, and the operations kept lead back from the state reached. -/
theorem exists_applyTree_ofDisentangler (h : ∀ op ∈ GateTree.flattenAll trees, op.Fits n)
    (width : ℕ) (left : List (Amplitude ℝ)) (chi : QuantumState ℝ n) :
    ∃ w, chi.applyTree (Preparation.ofDisentangler s width trees left).tree = (w, none) ∧
      actAll (keptOperations s trees) w.wave = chi.wave ∧
      w.wave = actAll ((keptOperations s trees).map inverse).reverse chi.wave := by
  have hfits : ∀ op ∈ (Preparation.ofDisentangler s width trees left).tree.flatten,
      op.Fits n := by
    rw [flatten_tree_ofDisentangler]
    intro op hop
    obtain ⟨op', hop', rfl⟩ := List.mem_map.mp (List.mem_reverse.mp hop)
    exact fits_inverse_iff.mpr (fits_keptOperations h op' hop')
  obtain ⟨w, hw, hwave⟩ := QuantumState.applyTree_of_fits hfits chi
  rw [flatten_tree_ofDisentangler] at hwave
  refine ⟨w, hw, ?_, hwave⟩
  rw [hwave, ← Module.End.mul_apply, actAll_mul_actAll_inverse, Module.End.one_apply]

/-- **The state reached**: up to the weight, the amplitudes on the register and the rest as it was,
times the phase reported. -/
theorem smul_wave_of_clear (h : prepare s amps register = .ok p) (hnodup : register.Nodup)
    (hpairs : ∀ pair ∈ pairsMet s.tolerance register.length amps, IsClear s.tolerance pair)
    (hangles : s.simplify = true → ClearAngles s.tolerance register amps)
    (hn : ∀ q ∈ register, q.bit < n) {chi : QuantumState ℝ n}
    (hchi : ∀ q ∈ register, ∀ i, i.testBit q.bit = true → chi.wave i = 0) :
    ∃ w, chi.applyTree p.tree = (w, none) ∧ ((Amplitude.weight amps : ℝ) : ℂ) • w.wave =
      p.phase.toComplex • place register (amplitudeAt amps) chi.wave := by
  obtain ⟨hpos, hlen, trees, htrees, rfl, hfits, hact⟩ := exists_of_prepare h hnodup
  obtain ⟨w, hw, -, hwave⟩ := exists_applyTree_ofDisentangler (s := s) (hfits n hn)
    register.length (leftOver s.tolerance register.length amps) chi
  refine ⟨w, hw, ?_⟩
  have hkept : actAll (keptOperations s trees) = collapseAll s.tolerance register amps := by
    rw [← hact]
    unfold keptOperations
    split
    · next hsimplify =>
      rw [actAll_freeReduce, actAll_filter_isZeroRotation]
      intro op hop
      exact angle?_eq_zero_of_clear hpos (hangles hsimplify _ _ htrees op hop)
    · rfl
  have hplace : place register (amplitudeAt amps) chi.wave =
      amplitudeAt (leftOver s.tolerance register.length amps) 0 • w.wave := by
    rw [hwave, ← map_smul, ← collapseAll_place hpos hnodup hchi hlen hpairs, ← hkept,
      ← Module.End.mul_apply, actAll_inverse_mul_actAll, Module.End.one_apply]
  rw [hplace, smul_smul, toComplex_phase_ofDisentangler _ (length_leftOver _ _ _ hlen),
    conj_mul', ← norm_leftOver_sq hlen hpairs]
  push_cast
  rfl

theorem exists_applyTree_of_clear (h : prepare s amps register = .ok p) (hnodup : register.Nodup)
    (hpairs : ∀ pair ∈ pairsMet s.tolerance register.length amps, IsClear s.tolerance pair)
    (hangles : s.simplify = true → ClearAngles s.tolerance register amps)
    (hn : ∀ q ∈ register, q.bit < n) {chi : QuantumState ℝ n} (hchi : chi.HoldsZero register) :
    ∃ w, chi.applyTree p.tree = (w, none) ∧ ∀ i (hi : i < 2 ^ n),
      have hc := clearRegister_lt register hi
      ∃ a, amps[readRegister register i]? = some a ∧
        ⟨Amplitude.weight amps, 0⟩ * w.amps[i] =
          p.phase * a * chi.amps[clearRegister register i] := by
  obtain ⟨w, hw, hsmul⟩ := smul_wave_of_clear h hnodup hpairs hangles hn hchi.wave_eq_zero
  refine ⟨w, hw, ?_⟩
  intro i hi hc
  obtain ⟨-, -, hlen, -⟩ := prepare_eq_ok_iff.mp h
  have hindex : readRegister register i < amps.length := hlen ▸ readRegister_lt register i
  refine ⟨_, List.getElem?_eq_getElem hindex, Amplitude.toComplex_injective ?_⟩
  have hi' := congrFun hsmul i
  rw [Pi.smul_apply, Pi.smul_apply, smul_eq_mul, smul_eq_mul, place, amplitudeAt,
    List.getD_eq_getElem _ _ hindex, QuantumState.wave_of_lt _ hi,
    QuantumState.wave_of_lt _ hc] at hi'
  rw [Amplitude.toComplex_mul, Amplitude.toComplex_mk_zero, hi', Amplitude.toComplex_mul,
    Amplitude.toComplex_mul, mul_assoc]

theorem amps_eq_placed {w : QuantumState ℝ n} (hweight : Amplitude.weight amps = 1)
    (hamps : ∀ i (hi : i < 2 ^ n),
      have hc := clearRegister_lt register hi
      ∃ a, amps[readRegister register i]? = some a ∧
        ⟨Amplitude.weight amps, 0⟩ * w.amps[i] =
          p.phase * a * (QuantumState.zero n).amps[clearRegister register i]) :
    w = (QuantumState.placed n amps register).scale p.phase := by
  refine QuantumState.ext_amps fun i hi => Amplitude.toComplex_injective ?_
  obtain ⟨a, ha, heq⟩ := hamps i hi
  have hcomplex := congrArg Amplitude.toComplex heq
  rw [Amplitude.toComplex_mul, Amplitude.toComplex_mk_zero, hweight, ofReal_one,
    one_mul] at hcomplex
  rw [hcomplex, QuantumState.getElem_zero]
  unfold QuantumState.scale QuantumState.placed
  rw [Vector.getElem_map, Vector.getElem_ofFn, List.getD_eq_getElem?_getD, ha]
  split <;> simp

/-- **Preparation is right.** Let no pair met be short unless it is zero, and no angle be small
unless it is zero or nothing is simplified. From every state in which the register holds zero the
prepared tree puts the amplitudes wanted on the register, times the phase reported and over their
weight, and keeps the rest. With weight one and from the zero state that is the state wanted, times
the phase. -/
theorem prepare_applyTree (h : prepare s amps register = .ok p) (hnodup : register.Nodup)
    (hpairs : ∀ pair ∈ pairsMet s.tolerance register.length amps, IsClear s.tolerance pair)
    (hangles : s.simplify = true → ClearAngles s.tolerance register amps)
    (hn : ∀ q ∈ register, q.bit < n) :
    (∀ chi : QuantumState ℝ n, chi.HoldsZero register →
      ∃ w, chi.applyTree p.tree = (w, none) ∧ ∀ i (hi : i < 2 ^ n),
        have hc := clearRegister_lt register hi
        ∃ a, amps[readRegister register i]? = some a ∧
          ⟨Amplitude.weight amps, 0⟩ * w.amps[i] =
            p.phase * a * chi.amps[clearRegister register i]) ∧
      (Amplitude.weight amps = 1 → (QuantumState.zero n).applyTree p.tree =
        ((QuantumState.placed n amps register).scale p.phase, none)) := by
  refine ⟨fun chi hchi => exists_applyTree_of_clear h hnodup hpairs hangles hn hchi,
    fun hweight => ?_⟩
  obtain ⟨w, hw, hamps⟩ := exists_applyTree_of_clear h hnodup hpairs hangles hn
    (QuantumState.holdsZero_zero n register)
  rw [hw, amps_eq_placed hweight hamps]

/-- Two of four qubits are entangled. The rotations about the `z` axis are left out, and the flips of
the multiplexor about the `y` axis stay. -/
theorem prepare_applyTree_bell : ∃ p,
    prepare ⟨1 / 8, true⟩ (bellPair (√2 / 2)) [⟨3⟩, ⟨1⟩] = .ok p ∧
      (QuantumState.zero 4).applyTree p.tree =
        ((QuantumState.placed 4 (bellPair (√2 / 2)) [⟨3⟩, ⟨1⟩]).scale p.phase, none) := by
  have hnodup : ([⟨3⟩, ⟨1⟩] : List Qubit).Nodup := by decide
  have hpos : (0 : ℝ) < 1 / 8 := by norm_num
  have hweight : Amplitude.weight (bellPair (√2 / 2)) = 1 := by
    rw [weight_bellPair, div_pow, Real.sq_sqrt zero_le_two]
    norm_num
  obtain ⟨p, hp⟩ := exists_prepare (s := ⟨1 / 8, true⟩) hpos hnodup (by decide)
    (show (bellPair (√2 / 2)).length = 2 ^ 2 from rfl) (by rw [hweight]; norm_num)
  have hclear := isClear_of_mem_pairsMet_bellPair hpos eighth_le_sqrt_two_div_two
  exact ⟨p, hp, (prepare_applyTree hp hnodup hclear (fun _ => clearAngles_bellPair)
    (by decide)).2 hweight⟩

/-- **The error of a preparation is bounded** without any assumption on pairs and angles. The
distance from the state wanted, turned by the phase reported, is at most the tolerance for each of
the pairs met, and half the tolerance times the length of the amplitudes for each rotation taken
out. -/
theorem distance_placed_le (h : prepare s amps register = .ok p) (hnodup : register.Nodup)
    (hn : ∀ q ∈ register, q.bit < n) :
    ∃ w, (QuantumState.zero n).applyTree p.tree = (w, none) ∧
      (QuantumState.placed n amps register).distance (w.scale p.phase.conj) ≤
        (2 ^ register.length - 1) * s.tolerance +
          p.stats.rotations * (s.tolerance / 2) * Real.sqrt (Amplitude.weight amps) := by
  obtain ⟨hpos, hlen, trees, -, rfl, hfits, hact⟩ := exists_of_prepare h hnodup
  obtain ⟨w, hw, hback, -⟩ := exists_applyTree_ofDisentangler (s := s) (hfits n hn)
    register.length (leftOver s.tolerance register.length amps) (.zero n)
  refine ⟨w, hw, ?_⟩
  let wanted : Wave := place register (amplitudeAt amps) ground
  let left : ℂ := amplitudeAt (leftOver s.tolerance register.length amps) 0
  have hphase : (Preparation.ofDisentangler s register.length trees
      (leftOver s.tolerance register.length amps)).phase.conj.toComplex = left := by
    rw [Amplitude.toComplex_conj, toComplex_phase_ofDisentangler _ (length_leftOver _ _ _ hlen),
      conj_conj]
  -- the operations kept lead the prepared state to `left` times the ground state
  have hmoved : ‖below n wanted - below n (left • w.wave)‖ =
      ‖below n (actAll (keptOperations s trees) wanted) - below n (left • ground)‖ := by
    rw [← QuantumState.wave_zero n, ← hback, ← map_smul (actAll _), ← map_sub (below n),
      ← map_sub (below n), ← map_sub (actAll _),
      norm_actAll (fits_keptOperations (hfits n hn))]
  have hdisentangled : ‖below n (actAll (GateTree.flattenAll trees) wanted) -
      below n (left • ground)‖ ≤ (2 ^ register.length - 1) * s.tolerance := by
    rw [hact]
    exact norm_collapseAll_place_sub_le hpos hnodup hn hlen
  have hdropped := norm_actAll_sub_keptOperations_le hpos (hfits n hn) register.length
    (leftOver s.tolerance register.length amps) wanted
  have hlength : ‖below n wanted‖ ≤ Real.sqrt (Amplitude.weight amps) := by
    rw [← sum_norm_amplitudeAt hlen]
    exact Real.le_sqrt_of_sq_le (norm_place_ground_sq_le _ _ _)
  have hscaled := mul_le_mul_of_nonneg_left hlength (a := ((Preparation.ofDisentangler s
    register.length trees (leftOver s.tolerance register.length amps)).stats.rotations : ℝ) *
      (s.tolerance / 2)) (by positivity)
  have htriangle := norm_sub_le_norm_sub_add_norm_sub
    (below n (actAll (keptOperations s trees) wanted))
    (below n (actAll (GateTree.flattenAll trees) wanted)) (below n (left • ground))
  rw [QuantumState.distance_eq, QuantumState.below_wave_placed, QuantumState.wave_scale, hphase,
    hmoved]
  rw [norm_sub_rev] at hdropped
  linarith

/-- A pair that counts as zero, with a generous tolerance. -/
theorem distance_placed_le_short : ∃ p w,
    prepare ⟨1, true⟩ [(⟨1 / 2, 0⟩ : Amplitude ℝ), 0] [⟨1⟩] = .ok p ∧
      (QuantumState.zero 2).applyTree p.tree = (w, none) ∧
        (QuantumState.placed 2 [⟨1 / 2, 0⟩, 0] [⟨1⟩]).distance (w.scale p.phase.conj) ≤
          (2 ^ 1 - 1) * 1 +
            p.stats.rotations * (1 / 2) * Real.sqrt (Amplitude.weight [⟨1 / 2, 0⟩, 0]) := by
  have hweight : |Amplitude.weight [(⟨1 / 2, 0⟩ : Amplitude ℝ), 0] - 1| ≤ 1 := by
    rw [Amplitude.weight_eq_sum]
    simp only [List.map_cons, List.map_nil, List.sum_cons, List.sum_nil,
      Amplitude.toComplex_mk_zero, Amplitude.toComplex_zero, norm_real]
    norm_num [abs_le]
  obtain ⟨p, hp⟩ := exists_prepare (s := ⟨1, true⟩) one_pos
    (show ([⟨1⟩] : List Qubit).Nodup by decide) (by decide) rfl hweight
  obtain ⟨w, hw, hle⟩ := distance_placed_le hp (by decide) (n := 2) (by decide)
  exact ⟨p, w, hp, hw, hle⟩

end Prepared

end StatePrep
