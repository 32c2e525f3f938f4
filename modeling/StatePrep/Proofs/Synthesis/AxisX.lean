import StatePrep.Proofs.Synthesis.Multiplexor
import StatePrep.Proofs.Wave.Inverse

/-! # Multiplexors about the `x` axis

A flip of the target turns a rotation about the `y` or the `z` axis around, but it leaves one about
the `x` axis as it is. There the half-sums and the half-differences of the angles add up for both
values of a control, so a multiplexor rotates its target by the first of its angles, whatever the
controls hold (`opened_ladder_x`). It turns every pair of amplitudes by the angle that the controls
choose if all its angles are the same rotation, and only then (`applyTree_multiplexor_x`);
`not_turnsPairs_x` has two angles that are not. -/

namespace StatePrep

open Operation

namespace Multiplexor

variable {angles : List ℝ}

/-! ### The first angle -/

theorem getD_halves_add {m : ℕ} (hlen : angles.length = m * 2) (hm : 0 < m) :
    (halfDifferences angles).getD 0 0 + (halfSums angles).getD 0 0 = angles.getD 0 0 := by
  rw [halfSums_eq hlen, halfDifferences_eq hlen, getD_zipWith_halves _ hlen hm,
    getD_zipWith_halves _ hlen hm]
  ring

/-- **About the `x` axis a ladder** rotates its target by the first of its angles. -/
theorem opened_ladder_x (target : Qubit) (controls : List Qubit) : ∀ angles : List ℝ,
    angles.length = 2 ^ controls.length → Opened .x target (controls.headD target)
      (fun _ => angles.getD 0 0) (ladder .x target controls angles) := by
  induction controls with
  | nil =>
    intro angles hlen
    obtain ⟨theta, rfl⟩ := List.length_eq_one_iff.mp hlen
    exact Opened.rotation .x target theta
  | cons c below ih =>
    intro angles hlen
    rw [List.length_cons, Nat.pow_succ] at hlen
    have hhalf : angles.length / 2 = 2 ^ below.length := by omega
    have hlow := ih (halfSums angles) ((length_halfSums angles).trans hhalf)
    have hhigh := ih (halfDifferences angles) ((length_halfDifferences angles).trans hhalf)
    rw [← getD_halves_add hlen (Nat.two_pow_pos _)]
    exact hlow.join_x (fun _ => rfl) (fun _ => rfl) hhigh

theorem exists_toTree_x {register : List Qubit} {bottom count : ℕ}
    (htop : bottom + count + 1 = register.length) (hlen : angles.length = 2 ^ count) :
    ∃ tree, Multiplexor.toTree ⟨register, .x⟩ bottom angles = .ok tree ∧
      (∀ n, (∀ q ∈ register, q.bit < n) → ∀ op ∈ tree.flatten, op.Fits n) ∧
      actAll tree.flatten = turn .x register[bottom].bit fun _ => angles.getD 0 0 := by
  refine Opened.exists_toTree htop.symm hlen (opened_ladder_x _ _ angles ?_)
  rw [List.length_reverse, length_controlsAbove (by omega), hlen]

/-! ### Pairs of amplitudes -/

theorem matrix_x_eq_of_apply {a b : ℝ}
    (h : (Axis.x.matrix a).apply 1 0 = (Axis.x.matrix b).apply 1 0) :
    Axis.x.matrix a = Axis.x.matrix b := by
  have hzero : (Axis.x.matrix a).stay false = (Axis.x.matrix b).stay false := by
    simpa [Matrix2.apply, Matrix2.stay] using congrArg (fun p => p.1.toComplex) h
  have hone : (Axis.x.matrix a).cross true = (Axis.x.matrix b).cross true := by
    simpa [Matrix2.apply, Matrix2.cross] using congrArg (fun p => p.2.toComplex) h
  rw [stay_rx, stay_rx] at hzero
  rw [cross_rx, cross_rx] at hone
  refine Matrix2.ext_entries (fun v => ?_) fun v => ?_
  · rw [stay_rx, stay_rx, hzero]
  · rw [cross_rx, cross_rx, hone]

section Pairs

variable {n : ℕ} {target : Fin n} {controls : List Qubit} {a : ℝ}

theorem TurnsPairs.of_matrix_eq (hlen : angles.length = 2 ^ controls.length)
    (hsame : ∀ angle ∈ angles, Axis.x.matrix angle = Axis.x.matrix a) {v w : QuantumState ℝ n}
    (h : TurnsPairs .x target [] [a] v w) : TurnsPairs .x target controls angles v w := by
  intro i hi hbit hp
  have hindex : readRegister controls i < angles.length := hlen ▸ readRegister_lt controls i
  obtain ⟨angle, hangle, himage⟩ := h i hi hbit
  obtain rfl : a = angle := Option.some.inj hangle
  refine ⟨_, List.getElem?_eq_getElem hindex, ?_⟩
  rw [hsame _ (List.getElem_mem hindex)]
  exact himage

/-- If a turn of all pairs by one angle is always one by the angles that the controls choose, these
are the same rotation. Every angle is chosen in some basis state. -/
theorem matrix_eq_of_turnsPairs (hnodup : controls.Nodup) (hne : ∀ c ∈ controls, target.val ≠ c.bit)
    (hn : ∀ c ∈ controls, c.bit < n) (hlen : angles.length = 2 ^ controls.length)
    (h : ∀ v : QuantumState ℝ n, ∃ w, TurnsPairs .x target [] [a] v w ∧
      TurnsPairs .x target controls angles v w) :
    ∀ angle ∈ angles, Axis.x.matrix angle = Axis.x.matrix a := by
  intro angle hangle
  obtain ⟨j, hj, rfl⟩ := List.getElem_of_mem hangle
  obtain ⟨i, hread, hbits⟩ := exists_readRegister_eq hnodup (hlen ▸ hj)
  have hi : i < 2 ^ n := by
    refine Nat.lt_pow_two_of_testBit _ fun t ht => Bool.eq_false_iff.mpr fun hbit => ?_
    obtain ⟨c, hc, rfl⟩ := hbits t hbit
    exact absurd (hn c hc) (Nat.not_lt.mpr ht)
  have htarget : i.testBit target = false := by
    refine Bool.eq_false_iff.mpr fun hbit => ?_
    obtain ⟨c, hc, heq⟩ := hbits _ hbit
    exact hne c hc heq.symm
  obtain ⟨w, hfirst, hchosen⟩ := h (.basis n i hi)
  obtain ⟨angle, hangle, hw⟩ := hfirst i hi htarget
  obtain ⟨angle', hangle', hw'⟩ := hchosen i hi htarget
  obtain rfl : a = angle := Option.some.inj hangle
  rw [hread, List.getElem?_eq_getElem hj] at hangle'
  obtain rfl := Option.some.inj hangle'
  rw [QuantumState.getElem_basis, QuantumState.getElem_basis, if_pos rfl,
    if_neg (partner_ne _ _)] at hw hw'
  exact matrix_x_eq_of_apply (hw'.symm.trans hw)

end Pairs

/-- **A multiplexor about the `x` axis** that is the outermost one can be built and applied, and it
turns every pair of amplitudes by the first of its angles, whatever the controls hold. So it turns
them by the angle that the controls choose if all angles are the same rotation, and only then. -/
theorem applyTree_multiplexor_x {register : List Qubit} (hnodup : register.Nodup) {bottom k : ℕ}
    (htop : bottom + k + 1 = register.length) (hlen : angles.length = 2 ^ k) :
    ∃ tree, Multiplexor.toTree ⟨register, .x⟩ bottom angles = .ok tree ∧
      ∀ {n : ℕ} (hn : ∀ q ∈ register, q.bit < n),
        let target : Fin n := ⟨register[bottom].bit, hn _ (List.getElem_mem _)⟩
        (∀ v : QuantumState ℝ n, ∃ w, v.applyTree tree = (w, none) ∧
          TurnsPairs .x target [] [angles.getD 0 0] v w) ∧
        ((∀ v w : QuantumState ℝ n, v.applyTree tree = (w, none) →
            TurnsPairs .x target (controlsAbove register bottom k) angles v w) ↔
          ∀ angle ∈ angles, Axis.x.matrix angle = Axis.x.matrix (angles.getD 0 0)) := by
  obtain ⟨tree, htree, hfits, hact⟩ := exists_toTree_x htop hlen
  have hcount : bottom + k < register.length := by omega
  have hbottom : bottom < register.length := by omega
  have hcontrols : (controlsAbove register bottom k).Nodup :=
    hnodup.sublist ((List.take_sublist _ _).trans (List.drop_sublist _ _))
  have hangles : angles.length = 2 ^ (controlsAbove register bottom k).length := by
    rw [length_controlsAbove hcount, hlen]
  refine ⟨tree, htree, ?_⟩
  intro n hn target
  have hne : ∀ c ∈ controlsAbove register bottom k, target.val ≠ c.bit := by
    intro c hc h
    exact ne_of_mem_controlsAbove hnodup hbottom hc (Qubit.bit_inj.mp h.symm)
  have hturn : ∀ v : QuantumState ℝ n, ∃ w, v.applyTree tree = (w, none) ∧
      TurnsPairs .x target [] [angles.getD 0 0] v w := by
    intro v
    obtain ⟨w, hw, hwave⟩ := QuantumState.applyTree_of_fits (hfits n hn) v
    rw [hact] at hwave
    exact ⟨w, hw, turnsPairs_of_wave_eq rfl (List.forall_mem_nil _) hwave⟩
  refine ⟨hturn, fun h => ?_, fun hsame v w hw => ?_⟩
  · refine matrix_eq_of_turnsPairs hcontrols hne
      (fun c hc => hn c (mem_of_mem_controlsAbove hc)) hangles fun v => ?_
    obtain ⟨w, hw, hfirst⟩ := hturn v
    exact ⟨w, hfirst, h v w hw⟩
  · obtain ⟨w', hw', hfirst⟩ := hturn v
    obtain rfl : w' = w := congrArg Prod.fst (hw'.symm.trans hw)
    exact hfirst.of_matrix_eq hangles hsame

/-- Four different angles under two controls: the target is turned by the first. -/
theorem applyTree_multiplexor_x_four :
    ∃ tree, Multiplexor.toTree ⟨[⟨2⟩, ⟨0⟩, ⟨1⟩], .x⟩ 0 [(1 : ℝ), 2, 3, 4] = .ok tree ∧
      ∀ v : QuantumState ℝ 3, ∃ w, v.applyTree tree = (w, none) ∧ TurnsPairs .x 2 [] [1] v w := by
  obtain ⟨tree, htree, hstates⟩ := applyTree_multiplexor_x
    (show ([⟨2⟩, ⟨0⟩, ⟨1⟩] : List Qubit).Nodup by decide)
    (show 0 + 2 + 1 = [(⟨2⟩ : Qubit), ⟨0⟩, ⟨1⟩].length from rfl)
    (show [(1 : ℝ), 2, 3, 4].length = 2 ^ 2 from rfl)
  exact ⟨tree, htree, (hstates (n := 3) (by decide)).1⟩

/-- With the angles zero and `π` under one control the basis state in which the control is set stays
as it is, and a rotation by `π` would flip the target. -/
theorem not_turnsPairs_x :
    ∃ tree, Multiplexor.toTree ⟨[⟨0⟩, ⟨1⟩], .x⟩ 0 [0, Real.pi] = .ok tree ∧
      ∃ v : QuantumState ℝ 2, v = .basis 2 2 (by decide) ∧ v.applyTree tree = (v, none) ∧
        ¬ TurnsPairs .x 0 [⟨1⟩] [0, Real.pi] v v := by
  obtain ⟨tree, htree, hfits, hact⟩ := exists_toTree_x
    (show 0 + 1 + 1 = [(⟨0⟩ : Qubit), ⟨1⟩].length from rfl)
    (show [0, Real.pi].length = 2 ^ 1 from rfl)
  refine ⟨tree, htree, _, rfl, QuantumState.applyTree_eq_iff.mpr ⟨hfits 2 (by decide), ?_⟩, ?_⟩
  · have hnone : turn .x 0 (fun _ => 0) = 1 := turn_zero .x 0
    rw [hact]
    exact (LinearMap.congr_fun hnone _).symm
  · intro h
    obtain ⟨angle, hangle, himage⟩ := h 2 (by decide) (by decide)
    obtain rfl : Real.pi = angle := Option.some.inj hangle
    rw [QuantumState.getElem_basis, QuantumState.getElem_basis, if_pos rfl,
      if_neg (by decide)] at himage
    have hone : (1 : ℂ) = (Axis.x.matrix Real.pi).stay false := by
      simpa [Matrix2.apply, Matrix2.stay] using congrArg (fun p => p.1.toComplex) himage
    rw [stay_rx, Real.cos_pi_div_two, Complex.ofReal_zero] at hone
    exact one_ne_zero hone

end Multiplexor

end StatePrep
