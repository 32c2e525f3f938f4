import StatePrep.Proofs.Circuit.GlobalPhase

/-! # Correcting the phase of a preparation

A preparation gives a phase whose conjugate, applied as a global phase, would make the state exactly
the one wanted. Both steps compare with a tolerance: the preparation with that of the caller's
settings, the global phase of a circuit with that of the standard ones. The length of the phase is
within the first of one (`abs_norm_phase_sub_one_le`), which is enough for a global phase under the
caller's settings. The circuit takes it if the length is within the standard tolerance, and only
then (`shiftPhase_conj_iff`); `shiftPhase_conj_eq_error_loose` is refused. -/

namespace StatePrep

namespace Circuit

variable {c d : Circuit ℝ} {s : Settings ℝ} {amps : List (Amplitude ℝ)} {register : List Qubit}
  {phase : Amplitude ℝ}

theorem shiftPhase_eq_error (hqubits : c.qubits ≠ [])
    (hphase : ¬ |phase.norm - 1| ≤ (Settings.standard : Settings ℝ).tolerance) :
    c.shiftPhase phase = .error (.phaseLength phase.norm) := by
  obtain ⟨q, -, hfirst⟩ := exists_take_one hqubits
  have hrefused : (Settings.standard : Settings ℝ).agree phase.norm 1 = false :=
    Bool.eq_false_iff.mpr fun h => hphase (Settings.agree_iff.mp h)
  rw [shiftPhase, hfirst,
    phaseTree_eq_error (Settings.isUsable_iff.mpr standard_tolerance_pos) hrefused]
  rfl

theorem exists_shiftPhase_iff (hqubits : c.qubits ≠ []) (phase : Amplitude ℝ) :
    (∃ d, c.shiftPhase phase = .ok d) ↔
      |phase.norm - 1| ≤ (Settings.standard : Settings ℝ).tolerance := by
  refine ⟨fun ⟨d, hd⟩ => ?_, fun h => ?_⟩
  · by_contra h
    rw [shiftPhase_eq_error hqubits h] at hd
    cases hd
  · obtain ⟨tree, htree, -⟩ := exists_shiftPhase hqubits h
    exact ⟨_, htree⟩

theorem qubits_ne_nil_of_prepare (h : c.prepare s amps register = .ok (phase, d)) :
    d.qubits ≠ [] := by
  obtain ⟨hcheck, p, hp, -, happend⟩ := prepare_ok_iff.mp h
  obtain ⟨-, rfl⟩ := append_eq_ok_iff.mp happend
  obtain ⟨-, hpos, -⟩ := prepare_eq_ok_iff.mp hp
  obtain ⟨q, hq⟩ := List.exists_mem_of_length_pos hpos
  exact List.ne_nil_of_mem ((checkQubits_eq_ok_iff.mp hcheck).1 q hq)

/-! ### One qubit -/

theorem norm_phase_pair {a b : Amplitude ℝ} {q : Qubit} {p : Preparation ℝ}
    (h : StatePrep.prepare s [a, b] [q] = .ok p) (hlong : s.tolerance ≤ pairLength a b) :
    p.phase.norm = pairLength a b := by
  have hlost : ((pairsMet s.tolerance 1 [a, b]).map (lostWeight s.tolerance)).sum = 0 :=
    sum_lostWeight_of_isClear fun pair hpair => List.mem_singleton.mp hpair ▸ .inr hlong
  have hweight : Amplitude.weight [a, b] = pairLength a b ^ 2 := by
    rw [pairLength_sq, Amplitude.weight_eq_sum]
    simp
  have hsq : p.phase.norm ^ 2 = pairLength a b ^ 2 := by
    rw [Amplitude.norm_eq, ← Amplitude.normSq_eq, ← hweight, ← normSq_phase_add_lostWeight h]
    exact (add_eq_left.mpr hlost).symm
  rw [Amplitude.norm_eq] at hsq ⊢
  exact (sq_eq_sq₀ (norm_nonneg _) (Real.sqrt_nonneg _)).mp hsq

theorem exists_prepare_loose {x : ℝ} (hx : 1 / 4 ≤ x) (hweight : |x ^ 2 - 1| ≤ 1 / 4) :
    ∃ phase d, (withQubits "loose" 1).prepare ⟨1 / 4, true⟩ [(⟨x, 0⟩ : Amplitude ℝ), 0] [⟨0⟩] =
      .ok (phase, d) ∧ phase.norm = x := by
  have hlength : pairLength ⟨x, 0⟩ 0 = x := by
    change pairLength ⟨x, 0⟩ ⟨0, 0⟩ = x
    rw [pairLength_mk_zero, zero_pow two_ne_zero, add_zero, Real.sqrt_sq (by linarith)]
  have hone : |Amplitude.weight [(⟨x, 0⟩ : Amplitude ℝ), 0] - 1| ≤ 1 / 4 := by
    rw [Amplitude.weight_eq_sum]
    simpa [Amplitude.toComplex_mk_zero] using hweight
  obtain ⟨p, hp⟩ := exists_prepare (s := ⟨1 / 4, true⟩) (by norm_num)
    (List.nodup_singleton (⟨0⟩ : Qubit)) (by decide) rfl hone
  exact ⟨p.phase, _, prepare_eq_ok (by decide) (List.nodup_singleton _) hp,
    (norm_phase_pair hp (hx.trans_eq hlength.symm)).trans hlength⟩

/-! ### Standard and other settings -/

/-- **When the phase of a preparation can be corrected on the circuit.** With a tolerance that times
the number of amplitudes is at most one, the phase is of length one within the tolerance, and a tree
for its conjugate under the same settings can be built and appended. The circuit itself takes the
conjugate as a global phase if the length is within the standard tolerance of one, and only then,
and otherwise tells the length; it is if the tolerance is at most the standard one. -/
theorem shiftPhase_conj_iff (h : c.prepare s amps register = .ok (phase, d))
    (hcount : 2 ^ register.length * s.tolerance ≤ 1) :
    |phase.norm - 1| ≤ s.tolerance ∧
    (∃ tree e, phaseTree s [phase.conj] (d.qubits.take 1) = .ok tree ∧ d.append tree = .ok e) ∧
    ((∃ e, d.shiftPhase phase.conj = .ok e) ↔
      |phase.norm - 1| ≤ (Settings.standard : Settings ℝ).tolerance) ∧
    (¬ |phase.norm - 1| ≤ (Settings.standard : Settings ℝ).tolerance →
      d.shiftPhase phase.conj = .error (.phaseLength phase.norm)) ∧
    (s.tolerance ≤ (Settings.standard : Settings ℝ).tolerance →
      ∃ e, d.shiftPhase phase.conj = .ok e) := by
  have hqubits := qubits_ne_nil_of_prepare h
  obtain ⟨-, p, hp, rfl, -⟩ := prepare_ok_iff.mp h
  have hnear := abs_norm_phase_sub_one_le hp hcount
  have hconj := p.phase.norm_conj
  have hiff := exists_shiftPhase_iff hqubits p.phase.conj
  rw [hconj] at hiff
  refine ⟨hnear, ?_, hiff, fun hfar => ?_, fun hle => hiff.mpr (hnear.trans hle)⟩
  · have hpos := Settings.isUsable_iff.mp (prepare_eq_ok_iff.mp hp).1
    obtain ⟨tree, htree, happend, -⟩ :=
      exists_append_phaseTree hqubits hpos (hconj.symm ▸ hnear)
    exact ⟨tree, _, htree, happend⟩
  · rw [shiftPhase_eq_error hqubits (hconj.symm ▸ hfar), hconj]

/-- With a tolerance above the standard one, amplitudes of length one are still corrected. -/
theorem shiftPhase_conj_iff_loose : ∃ phase d e,
    (withQubits "loose" 1).prepare ⟨1 / 4, true⟩ [(⟨1, 0⟩ : Amplitude ℝ), 0] [⟨0⟩] =
      .ok (phase, d) ∧
    d.shiftPhase phase.conj = .ok e := by
  obtain ⟨phase, d, hprepare, hnorm⟩ := exists_prepare_loose (x := 1) (by norm_num) (by norm_num)
  obtain ⟨-, -, hiff, -, -⟩ := shiftPhase_conj_iff hprepare (by norm_num)
  obtain ⟨e, he⟩ := hiff.mpr (by rw [hnorm]; simpa using standard_tolerance_pos.le)
  exact ⟨phase, d, e, hprepare, he⟩

/-- Amplitudes whose length is above one by a sixteenth are prepared with a tolerance of a quarter,
and the phase is refused. -/
theorem shiftPhase_conj_eq_error_loose : ∃ phase d,
    (withQubits "loose" 1).prepare ⟨1 / 4, true⟩ [(⟨17 / 16, 0⟩ : Amplitude ℝ), 0] [⟨0⟩] =
      .ok (phase, d) ∧
    2 ^ 1 * (1 / 4 : ℝ) ≤ 1 ∧ d.shiftPhase phase.conj = .error (.phaseLength (17 / 16)) := by
  obtain ⟨phase, d, hprepare, hnorm⟩ :=
    exists_prepare_loose (x := 17 / 16) (by norm_num) (by norm_num [abs_le])
  have hconj : phase.conj.norm = 17 / 16 := phase.norm_conj.trans hnorm
  have hfar : ¬ |phase.conj.norm - 1| ≤ (Settings.standard : Settings ℝ).tolerance := by
    rw [hconj]
    norm_num [Settings.standard, abs_le]
  refine ⟨phase, d, hprepare, by norm_num, ?_⟩
  rw [shiftPhase_eq_error (qubits_ne_nil_of_prepare hprepare) hfar, hconj]

end Circuit

end StatePrep
