import StatePrep.Proofs.Synthesis.Outcome

/-! # Levels without rotation

A multiplexor mixes its angles by half-sums and half-differences. If all of them are below the
tolerance, so are the angles that it rotates by (`mem_toTree_of`), and simplification takes all its
rotations out. On distinct qubits no other multiplexor rotates the same qubit about the same axis,
so the prepared tree does not either (`spares_of_small`).

Two kinds of amplitudes ask for no rotation in this way. A pair with a zero in the second place asks
for none about the `y` axis. A pair of non-negative numbers asks for none about the `z` axis and
leaves a non-negative number, so non-negative amplitudes stay what they are from level to level
(`isNonneg_leftOver`). `prepare_without_rotation` puts this together. -/

namespace StatePrep

open Multiplexor

/-! ### Small angles -/

/-- No leaf of the tree rotates the qubit about the axis. -/
def GateTree.Spares {α : Type} (axis : Axis) (q : Qubit) (t : GateTree α) : Prop :=
  ∀ op ∈ t.leaves, ∀ theta, op.gate = axis.rotation theta → q ∉ op.operands

theorem abs_half_add_lt {x y bound : ℝ} (hx : |x| < bound) (hy : |y| < bound) :
    |Scalar.half (x + y)| < bound := by
  rw [half_real]
  rw [abs_lt] at hx hy ⊢
  constructor <;> linarith

theorem abs_half_sub_lt {x y bound : ℝ} (hx : |x| < bound) (hy : |y| < bound) :
    |Scalar.half (x - y)| < bound := by
  rw [half_real]
  rw [abs_lt] at hx hy ⊢
  constructor <;> linarith

theorem axis_eq_of_rotation_eq {α : Type} {axis axis' : Axis} {a b : α}
    (h : axis.rotation a = axis'.rotation b) : axis = axis' := by
  cases axis <;> cases axis' <;> first | rfl | cases h

variable {s : Settings ℝ} {amps : List (Amplitude ℝ)} {register : List Qubit} {p : Preparation ℝ}

/-- A leaf of a simplified tree undoes a leaf of the multiplexor of some level, and that leaf is no
zero rotation. -/
theorem exists_level_of_mem_leaves (h : prepare s amps register = .ok p)
    (hsimplify : s.simplify = true) {op : Operation ℝ} (hop : op ∈ p.tree.leaves) :
    ∃ kept, op = kept.inverse ∧ ZeroRotation.isZeroRotation s kept = false ∧
      ∃ level axis t, toTree ⟨register, axis⟩ level ((disentangle s.tolerance
        (leftOver s.tolerance level amps)).map fun pair => pair.about axis) = .ok t ∧
          kept ∈ t.flatten := by
  obtain ⟨-, -, -, -, trees, left, htrees, rfl⟩ := prepare_eq_ok_iff.mp h
  rw [GateTree.leaves_eq_flatten, flatten_tree_ofDisentangler] at hop
  obtain ⟨kept, hkept, rfl⟩ := List.mem_map.mp (List.mem_reverse.mp hop)
  unfold keptOperations at hkept
  rw [if_pos hsimplify] at hkept
  obtain ⟨hmem, hnonzero⟩ := List.mem_filter.mp ((freeReduce_sublist _).subset hkept)
  obtain ⟨level, -, axis, t, -, ht, hleaf⟩ := exists_level_of_mem_disentangler htrees kept hmem
  rw [Nat.zero_add] at ht
  exact ⟨kept, rfl, by simpa using hnonzero, level, axis, t, ht, hleaf⟩

/-- **A level whose angles are small is not rotated**: no angle about the axis reaches the tolerance
at the level, so no rotation of its qubit about that axis is left in the prepared tree. -/
theorem spares_of_small (h : prepare s amps register = .ok p) (hsimplify : s.simplify = true)
    (hnodup : register.Nodup) {axis : Axis} {level : ℕ} (hlevel : level < register.length)
    (hsmall : ∀ pair ∈ disentangle s.tolerance (leftOver s.tolerance level amps),
      |pair.about axis| < s.tolerance) :
    p.tree.Spares axis register[level] := by
  have hpos := Settings.isUsable_iff.mp (prepare_eq_ok_iff.mp h).1
  intro op hop theta hgate hq
  obtain ⟨kept, rfl, hnonzero, level', axis', t, ht, hleaf⟩ :=
    exists_level_of_mem_leaves h hsimplify hop
  -- the angles are known to be small only where the level and the axis are those of the statement
  have hangles : ∀ x ∈ (disentangle s.tolerance (leftOver s.tolerance level' amps)).map
      fun pair => pair.about axis', axis' = axis ∧ level' = level → |x| < s.tolerance := by
    rintro x hx ⟨rfl, rfl⟩
    obtain ⟨pair, hpair, rfl⟩ := List.mem_map.mp hx
    exact hsmall pair hpair
  obtain ⟨hplace, ⟨theta', htheta', rfl⟩ | ⟨c, hc, -, rfl⟩⟩ := mem_toTree_of
    (fun x y hx hy hat => abs_half_add_lt (hx hat) (hy hat))
    (fun x y hx hy hat => abs_half_sub_lt (hx hat) (hy hat)) hangles ht hleaf
  · rw [Operation.inverse_rotation] at hgate hq
    have haxis : axis' = axis := axis_eq_of_rotation_eq hgate
    have hsame : level' = level :=
      (List.Nodup.getElem_inj_iff hnodup).mp (List.mem_singleton.mp hq).symm
    have hzero : ZeroRotation.isZeroRotation s (.rotation axis' theta' register[level']) = true :=
      (isZeroRotation_iff hpos).mpr ⟨theta', by cases axis' <;> rfl, htheta' ⟨haxis, hsame⟩⟩
    exact absurd hzero (Bool.eq_false_iff.mp hnonzero)
  · cases axis <;> cases hgate

/-! ### Pairs that ask for no rotation -/

theorem theta_opposite_ofPair_zero (tolerance : ℝ) (a : Amplitude ℝ) :
    (BlochAngles.ofPair tolerance a 0).opposite.theta = 0 := by
  by_cases hshort : pairLength a 0 < tolerance
  · rw [BlochAngles.ofPair_of_short hshort]
    exact neg_zero
  · have harg : Complex.arg ⟨a.norm, (0 : Amplitude ℝ).norm⟩ = 0 := by
      rw [Amplitude.norm_eq, Amplitude.norm_eq, Amplitude.toComplex_zero, norm_zero]
      exact Complex.arg_ofReal_of_nonneg (norm_nonneg _)
    rw [BlochAngles.ofPair_of_long (not_lt.mp hshort), harg, add_zero]
    exact neg_zero

/-- A real number that is not negative. -/
def Amplitude.IsNonneg (a : Amplitude ℝ) : Prop := 0 ≤ a.re ∧ a.im = 0

/-- **A pair of non-negative numbers** is not rotated about the `z` axis and leaves one. -/
theorem opposite_ofPair_of_isNonneg (tolerance : ℝ) {a b : Amplitude ℝ} (ha : a.IsNonneg)
    (hb : b.IsNonneg) : (BlochAngles.ofPair tolerance a b).opposite.phi = 0 ∧
      (BlochAngles.ofPair tolerance a b).opposite.remaining.IsNonneg := by
  obtain ⟨x, x'⟩ := a
  obtain ⟨y, y'⟩ := b
  obtain ⟨hx, rfl⟩ : 0 ≤ x ∧ x' = 0 := ha
  obtain ⟨hy, rfl⟩ : 0 ≤ y ∧ y' = 0 := hb
  by_cases hshort : pairLength ⟨x, 0⟩ ⟨y, 0⟩ < tolerance
  · rw [BlochAngles.ofPair_of_short hshort]
    exact ⟨neg_zero, le_rfl, rfl⟩
  · rw [BlochAngles.ofPair_of_nonneg hx hy (not_lt.mp hshort)]
    exact ⟨neg_zero, Real.sqrt_nonneg _, rfl⟩

theorem disentangle_of_isNonneg {tolerance : ℝ} (h : ∀ a ∈ amps, a.IsNonneg)
    {pair : BlochAngles ℝ} (hpair : pair ∈ disentangle tolerance amps) :
    pair.phi = 0 ∧ pair.remaining.IsNonneg := by
  obtain ⟨r, hr, rfl⟩ := exists_of_mem_disentangle hpair
  exact opposite_ofPair_of_isNonneg tolerance (h _ (List.getElem_mem _)) (h _ (List.getElem_mem hr))

/-- **Non-negative amplitudes stay non-negative** from level to level. -/
theorem isNonneg_leftOver (tolerance : ℝ) (level : ℕ) : ∀ {amps : List (Amplitude ℝ)},
    (∀ a ∈ amps, a.IsNonneg) → ∀ a ∈ leftOver tolerance level amps, a.IsNonneg := by
  induction level with
  | zero => exact fun h => h
  | succ level ih =>
    intro amps h
    refine ih fun a ha => ?_
    obtain ⟨pair, hpair, rfl⟩ := List.mem_map.mp ha
    exact (disentangle_of_isNonneg h hpair).2

/-! ### Prepared trees -/

theorem spares_of_odd_eq_zero (h : prepare s amps register = .ok p) (hsimplify : s.simplify = true)
    (hnodup : register.Nodup) (hodd : ∀ i (hi : i < amps.length), i % 2 = 1 → amps[i] = 0)
    (hqubit : 0 < register.length) : p.tree.Spares .y register[0] := by
  have hpos := Settings.isUsable_iff.mp (prepare_eq_ok_iff.mp h).1
  refine spares_of_small h hsimplify hnodup hqubit fun pair hpair => ?_
  change pair ∈ disentangle s.tolerance amps at hpair
  obtain ⟨r, hr, rfl⟩ := exists_of_mem_disentangle hpair
  change |BlochAngles.theta _| < s.tolerance
  rwa [hodd (2 * r + 1) hr (by omega), theta_opposite_ofPair_zero, abs_zero]

theorem spares_of_isNonneg (h : prepare s amps register = .ok p) (hsimplify : s.simplify = true)
    (hnodup : register.Nodup) (hamps : ∀ a ∈ amps, a.IsNonneg) {t : ℕ} (ht : t < register.length) :
    p.tree.Spares .z register[t] := by
  have hpos := Settings.isUsable_iff.mp (prepare_eq_ok_iff.mp h).1
  refine spares_of_small h hsimplify hnodup ht fun pair hpair => ?_
  have hphi := (disentangle_of_isNonneg (isNonneg_leftOver s.tolerance t hamps) hpair).1
  change |pair.phi| < s.tolerance
  rwa [hphi, abs_zero]

theorem exists_of_gate_eq_rz (h : prepare s amps register = .ok p) {op : Operation ℝ}
    (hop : op ∈ p.tree.leaves) {theta : ℝ} (hgate : op.gate = .rz theta) :
    ∃ (t : ℕ) (ht : t < register.length), register[t] ∈ op.operands := by
  rw [GateTree.leaves_eq_flatten] at hop
  rcases isPart_of_prepare h op hop with hpart | hpart <;> cases hpart with
  | rotation _ ht => exact ⟨_, ht, List.mem_singleton_self _⟩
  | cx _ _ => cases hgate

theorem isNonneg_phase (h : prepare s amps register = .ok p) (hamps : ∀ a ∈ amps, a.IsNonneg) :
    p.phase.IsNonneg := by
  obtain ⟨-, -, hlen, -, trees, left, htrees, rfl⟩ := prepare_eq_ok_iff.mp h
  obtain rfl := eq_leftOver_of_disentangler htrees
  obtain ⟨a, ha⟩ := List.length_eq_one_iff.mp (length_leftOver s.tolerance _ amps hlen)
  have hleft := isNonneg_leftOver s.tolerance register.length hamps
  rw [ha] at hleft ⊢
  obtain ⟨hre, him⟩ := hleft a (List.mem_singleton_self a)
  exact ⟨hre, neg_eq_zero.mpr him⟩

/-- **Levels without rotation leave no rotation.** Let a tree on distinct qubits be simplified. If
no angle about the `y` axis at a level reaches the tolerance, the tree does not rotate the qubit of
the level about that axis, and the same holds of the `z` axis. So it does not rotate the lowest
qubit about the `y` axis if the amplitudes at odd places are zero. If all amplitudes are
non-negative real numbers, it has no rotation about the `z` axis at all, and the phase is such a
number too. -/
theorem prepare_without_rotation (h : prepare s amps register = .ok p)
    (hsimplify : s.simplify = true) (hnodup : register.Nodup) :
    (∀ t (ht : t < register.length),
      let pairs := disentangle s.tolerance (leftOver s.tolerance t amps)
      ((∀ pair ∈ pairs, |pair.theta| < s.tolerance) → p.tree.Spares .y register[t]) ∧
        ((∀ pair ∈ pairs, |pair.phi| < s.tolerance) → p.tree.Spares .z register[t])) ∧
    ((∀ i (hi : i < amps.length), i % 2 = 1 → amps[i] = 0) →
      ∀ hqubit : 0 < register.length, p.tree.Spares .y register[0]) ∧
    ((∀ a ∈ amps, 0 ≤ a.re ∧ a.im = 0) →
      (∀ op ∈ p.tree.leaves, ∀ theta, op.gate ≠ .rz theta) ∧
        0 ≤ p.phase.re ∧ p.phase.im = 0) := by
  refine ⟨fun t ht => ⟨fun htheta => ?_, fun hphi => ?_⟩, spares_of_odd_eq_zero h hsimplify hnodup,
    fun hamps => ⟨fun op hop theta hgate => ?_, isNonneg_phase h hamps⟩⟩
  · exact spares_of_small h hsimplify hnodup ht htheta
  · exact spares_of_small h hsimplify hnodup ht hphi
  · obtain ⟨t, ht, hoperand⟩ := exists_of_gate_eq_rz h hop hgate
    exact spares_of_isNonneg h hsimplify hnodup hamps ht op hop theta hgate hoperand

/-- Two qubits with the upper one rotated and the lower one left alone. -/
theorem prepare_without_rotation_upper : ∃ p,
    prepare ⟨1 / 8, true⟩ [(⟨3 / 5, 0⟩ : Amplitude ℝ), 0, ⟨4 / 5, 0⟩, 0] [⟨3⟩, ⟨1⟩] = .ok p ∧
      p.tree.Spares .y ⟨3⟩ ∧ (∀ op ∈ p.tree.leaves, ∀ theta, op.gate ≠ .rz theta) ∧
      0 ≤ p.phase.re ∧ p.phase.im = 0 := by
  have hweight : Amplitude.weight [(⟨3 / 5, 0⟩ : Amplitude ℝ), 0, ⟨4 / 5, 0⟩, 0] = 1 := by
    rw [Amplitude.weight_eq_sum]
    simp only [List.map_cons, List.map_nil, List.sum_cons, List.sum_nil,
      Amplitude.toComplex_mk_zero, Amplitude.toComplex_zero, Complex.norm_real]
    norm_num
  have hnodup : ([⟨3⟩, ⟨1⟩] : List Qubit).Nodup := by decide
  obtain ⟨p, hp⟩ := exists_prepare (s := ⟨1 / 8, true⟩) (by norm_num) hnodup (by decide) rfl
    (by rw [hweight]; norm_num)
  obtain ⟨-, hodd, hnonneg⟩ := prepare_without_rotation hp rfl hnodup
  refine ⟨p, hp, hodd ?_ (by decide), hnonneg ?_⟩
  · intro i hi hplace
    change i < 4 at hi
    obtain rfl | rfl : i = 1 ∨ i = 3 := by omega
    · rfl
    · rfl
  · intro a ha
    simp only [List.mem_cons, List.not_mem_nil, or_false] at ha
    rcases ha with rfl | rfl | rfl | rfl
    · exact ⟨by norm_num, rfl⟩
    · exact ⟨le_rfl, rfl⟩
    · exact ⟨by norm_num, rfl⟩
    · exact ⟨le_rfl, rfl⟩

end StatePrep
