import StatePrep.Circuit.Prepare
import StatePrep.Proofs.Synthesis.Preparation

/-! # The phase of a preparation

The phase that a preparation reports has the weight of the amplitudes but for what is lost with the
short pairs (`normSq_phase_add_lostWeight`). It is therefore nearly of length one, and near enough
to be accepted as a global phase under the same settings (`normSq_phase_bounds`). Two tolerances
meet there: the weight of the amplitudes is within one of one, and the length of the phase has to
be. -/

namespace StatePrep

open Complex

/-! ### The weight of the phase -/

variable {s : Settings ℝ} {amps : List (Amplitude ℝ)} {register : List Qubit} {p : Preparation ℝ}

/-- **The weight of the phase** is that of the amplitudes without the short pairs met. -/
theorem normSq_phase_add_lostWeight (h : prepare s amps register = .ok p) :
    p.phase.normSq + ((pairsMet s.tolerance register.length amps).map
      (lostWeight s.tolerance)).sum = Amplitude.weight amps := by
  obtain ⟨-, -, hlen, -, trees, left, htrees, rfl⟩ := prepare_eq_ok_iff.mp h
  obtain rfl := eq_leftOver_of_disentangler htrees
  rw [Amplitude.normSq_eq, toComplex_phase_ofDisentangler _ (length_leftOver _ _ _ hlen),
    norm_conj, norm_leftOver_sq_add_lostWeight _ _ hlen]

theorem weight_sub_normSq_phase (h : prepare s amps register = .ok p) :
    0 ≤ Amplitude.weight amps - p.phase.normSq ∧
      Amplitude.weight amps - p.phase.normSq ≤ (2 ^ register.length - 1) * s.tolerance ^ 2 := by
  obtain ⟨-, -, hlen, -⟩ := prepare_eq_ok_iff.mp h
  have hcount : ((pairsMet s.tolerance register.length amps).length : ℝ) =
      2 ^ register.length - 1 := by
    rw [eq_sub_iff_add_eq]
    exact_mod_cast length_pairsMet s.tolerance register.length hlen
  rw [sub_eq_of_eq_add' (normSq_phase_add_lostWeight h).symm, ← hcount]
  exact ⟨sum_lostWeight_nonneg _ _, sum_lostWeight_le _ _⟩

/-! ### The phase as a global phase -/

theorem phaseTree_eq_ok {α : Type} [Analytic α] {s : Settings α} (husable : s.isUsable = true)
    {phase : Amplitude α} (hphase : s.agree phase.norm 1 = true) (q : Qubit) (qs : List Qubit) :
    phaseTree s [phase] (q :: qs) = .ok (.composite "global_phase"
      [.leaf (.single (.u Analytic.pi phase.arg (Analytic.pi + phase.arg)) q),
        .leaf (.single .x q)]) :=
  bind_eq_ok_iff.mpr ⟨(), check_eq_ok_iff.mpr husable, if_pos hphase⟩

theorem phaseTree_eq_error {α : Type} [Analytic α] {s : Settings α} (husable : s.isUsable = true)
    {phase : Amplitude α} (hphase : s.agree phase.norm 1 = false) (q : Qubit) (qs : List Qubit) :
    phaseTree s [phase] (q :: qs) = .error (.phaseLength phase.norm) := by
  rw [phaseTree, check_eq_ok_iff.mpr husable]
  exact if_neg (ne_true_of_eq_false hphase)

/-- **From a weight near one to a length near one.** Let a length `x` have a weight that is at most
`w` and misses `w` by at most `count - 1` squares of the tolerance. If `w` is within the tolerance
of one, so is `x`, provided `count` times the tolerance is at most one. -/
theorem abs_sub_one_le_of_sq {x w count tolerance : ℝ} (hx : 0 ≤ x) (hpos : 0 < tolerance)
    (hw : |w - 1| ≤ tolerance) (hle : 0 ≤ w - x ^ 2)
    (hlost : w - x ^ 2 ≤ (count - 1) * tolerance ^ 2) (hcount : count * tolerance ≤ 1) :
    |x - 1| ≤ tolerance := by
  obtain ⟨hbelow, habove⟩ := abs_le.mp hw
  have hupper : x ^ 2 ≤ (1 + tolerance) ^ 2 := by linarith [sq_nonneg tolerance]
  -- `1 - tolerance - (count - 1) * tolerance ^ 2` is the square below and this much more
  have hlower : (1 - tolerance) ^ 2 ≤ x ^ 2 := by
    have hspare : 0 ≤ tolerance * (1 - count * tolerance) := mul_nonneg hpos.le (by linarith)
    linarith
  have hxle := abs_le_of_sq_le_sq hupper (by linarith)
  have hlex := abs_le_of_sq_le_sq hlower hx
  rw [abs_le]
  constructor
  · linarith [le_abs_self (1 - tolerance)]
  · linarith [le_abs_self x]

theorem abs_norm_phase_sub_one_le (h : prepare s amps register = .ok p)
    (hcount : 2 ^ register.length * s.tolerance ≤ 1) : |p.phase.norm - 1| ≤ s.tolerance := by
  obtain ⟨husable, -, -, hweight, -⟩ := prepare_eq_ok_iff.mp h
  obtain ⟨hnonneg, hle⟩ := weight_sub_normSq_phase h
  rw [Amplitude.normSq_eq] at hnonneg hle
  rw [Amplitude.norm_eq]
  exact abs_sub_one_le_of_sq (norm_nonneg _) (Settings.isUsable_iff.mp husable)
    (Settings.agree_iff.mp hweight) hnonneg hle hcount

/-- **The phase is nearly of length one.** Its weight is at most that of the amplitudes, and less by
at most the square of the tolerance for each pair met; it is the same if all pairs met are clear. So
its conjugate is accepted as a global phase under the same settings, provided the tolerance times
the number of amplitudes is at most one. -/
theorem normSq_phase_bounds (h : prepare s amps register = .ok p) {n : ℕ}
    (hlen : amps.length = 2 ^ n) :
    0 ≤ Amplitude.weight amps - p.phase.normSq ∧
      Amplitude.weight amps - p.phase.normSq ≤ (2 ^ n - 1) * s.tolerance ^ 2 ∧
      ((∀ pair ∈ pairsMet s.tolerance n amps, IsClear s.tolerance pair) →
        Amplitude.weight amps - p.phase.normSq = 0) ∧
      (2 ^ n * s.tolerance ≤ 1 → ∃ tree, phaseTree s [p.phase.conj] register = .ok tree) := by
  obtain ⟨husable, hqubits, hlen', -⟩ := prepare_eq_ok_iff.mp h
  obtain rfl : n = register.length := Nat.pow_right_injective le_rfl (hlen.symm.trans hlen')
  obtain ⟨hnonneg, hle⟩ := weight_sub_normSq_phase h
  refine ⟨hnonneg, hle, fun hclear => ?_, fun hcount => ?_⟩
  · rw [sub_eq_of_eq_add' (normSq_phase_add_lostWeight h).symm]
    exact sum_lostWeight_of_isClear hclear
  · have hphase : |p.phase.conj.norm - 1| ≤ s.tolerance := by
      rw [Amplitude.norm_conj]
      exact abs_norm_phase_sub_one_le h hcount
    obtain ⟨q, qs, rfl⟩ := List.exists_cons_of_length_pos hqubits
    exact ⟨_, phaseTree_eq_ok husable (Settings.agree_iff.mpr hphase) q qs⟩

/-- A short pair is lost, and the phase is accepted all the same. -/
theorem normSq_phase_bounds_short : ∃ p,
    prepare ⟨1 / 4, true⟩ [(⟨1 / 8, 0⟩ : Amplitude ℝ), 0, 1, 0] [⟨1⟩, ⟨0⟩] = .ok p ∧
      0 ≤ Amplitude.weight [⟨1 / 8, 0⟩, 0, 1, 0] - p.phase.normSq ∧
      Amplitude.weight [⟨1 / 8, 0⟩, 0, 1, 0] - p.phase.normSq ≤ (2 ^ 2 - 1) * (1 / 4) ^ 2 ∧
      ∃ tree, phaseTree ⟨1 / 4, true⟩ [p.phase.conj] [⟨1⟩, ⟨0⟩] = .ok tree := by
  have hweight : |Amplitude.weight [(⟨1 / 8, 0⟩ : Amplitude ℝ), 0, 1, 0] - 1| ≤ 1 / 4 := by
    rw [Amplitude.weight_eq_sum]
    simp only [List.map_cons, List.map_nil, List.sum_cons, List.sum_nil,
      Amplitude.toComplex_mk_zero, Amplitude.toComplex_zero, Amplitude.toComplex_one, norm_real]
    norm_num [abs_le]
  obtain ⟨p, hp⟩ := exists_prepare (s := ⟨1 / 4, true⟩) (by norm_num)
    (show ([⟨1⟩, ⟨0⟩] : List Qubit).Nodup by decide) (by decide) rfl hweight
  obtain ⟨hnonneg, hle, -, htree⟩ := normSq_phase_bounds hp (n := 2) rfl
  exact ⟨p, hp, hnonneg, hle, htree (by norm_num)⟩

end StatePrep
