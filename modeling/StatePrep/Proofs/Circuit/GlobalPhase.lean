import StatePrep.Proofs.Circuit.Runs
import StatePrep.Proofs.Synthesis.Phase

/-! # Applying a global phase

The general gate with angles `π`, `φ` and `π + φ` exchanges the two values of a qubit and gives both
the phase `φ`; the flip after it exchanges them back. So the two gates together multiply every
amplitude by the phase, whatever the state is (`act_flip_mul_act_u`). A circuit that has a qubit
takes any phase of length one, and its simulation is multiplied by it (`Circuit.phase_scales`).

For that the circuit need not be small: the width of a state is above every qubit of the circuit
even where numbers have wrapped around (`Circuit.bit_lt_width`). -/

namespace StatePrep

open Complex Operation

/-! ### The two gates -/

theorem stay_u_pi (phi : ℝ) (b : Bool) :
    (Matrix2.u Real.pi phi (Real.pi + phi)).stay b = 0 := by
  rw [stay_u, Real.cos_pi_div_two, ofReal_zero, zero_mul]

/-- The half turn between its two phases makes up for the sign between its two entries. -/
theorem cross_u_pi (phi : ℝ) (b : Bool) :
    (Matrix2.u Real.pi phi (Real.pi + phi)).cross b = exp (phi * I) := by
  rw [cross_u, Real.sin_pi_div_two, ofReal_one, one_mul]
  cases b
  · simp only [Bool.false_eq_true, if_false]
    rw [← exp_mul_exp, exp_pi_mul_I]
    ring
  · simp only [if_true, one_mul]

/-- **The two gates multiply a wave by the phase**, whatever the wave and the qubit. -/
theorem act_flip_mul_act_u (phi : ℝ) (q : Qubit) :
    (single .x q).act * (single (.u Real.pi phi (Real.pi + phi)) q).act = exp (phi * I) • 1 := by
  rw [act_single rfl, act_single rfl, Matrix2.onQubit, Matrix2.onQubit, mix_mul_mix, ← mix_const]
  congr 1 <;> funext i
  · rw [stay_flip, cross_flip, cross_u_pi, zero_mul, zero_add, one_mul]
  · rw [stay_flip, cross_flip, stay_u_pi, zero_mul, zero_add, one_mul]

/-! ### States -/

/-- The phase of a number, as a number of length one. -/
noncomputable def unitPhase (a : Amplitude ℝ) : Amplitude ℝ := .polar 1 a.arg

theorem toComplex_unitPhase (a : Amplitude ℝ) : (unitPhase a).toComplex = exp (a.arg * I) := by
  rw [unitPhase, Amplitude.toComplex_polar, ofReal_one, one_mul]

theorem unitPhase_of_norm_eq_one {a : Amplitude ℝ} (h : a.norm = 1) : unitPhase a = a := by
  have hpolar := norm_mul_exp_arg_mul_I a.toComplex
  rw [← Amplitude.norm_eq, h, ofReal_one, one_mul] at hpolar
  exact Amplitude.toComplex_injective ((toComplex_unitPhase a).trans hpolar)

/-- **The tree of a global phase** has gates on its qubit only, and multiplies every state that has
this qubit by the phase. -/
theorem exists_phaseTree {s : Settings ℝ} (hpos : 0 < s.tolerance) {phase : Amplitude ℝ}
    (hphase : |phase.norm - 1| ≤ s.tolerance) (q : Qubit) (qs : List Qubit) :
    ∃ tree, phaseTree s [phase] (q :: qs) = .ok tree ∧
      (∀ op ∈ tree.flatten, op.WellFormed [q]) ∧
      ∀ {n : ℕ}, q.bit < n → ∀ v : QuantumState ℝ n,
        v.applyTree tree = (v.scale (unitPhase phase), none) := by
  let pair : List (Operation ℝ) :=
    [single (.u Real.pi phase.arg (Real.pi + phase.arg)) q, single .x q]
  have hwell : ∀ op ∈ pair, op.WellFormed [q] := by
    intro op hop
    have hq : q ∈ [q] := List.mem_singleton_self q
    rcases List.mem_pair.mp hop with rfl | rfl
    · exact wellFormed_single rfl hq
    · exact wellFormed_single rfl hq
  have hact : actAll pair = exp (phase.arg * I) • 1 := act_flip_mul_act_u phase.arg q
  refine ⟨_, phaseTree_eq_ok (Settings.isUsable_iff.mpr hpos) (Settings.agree_iff.mpr hphase) q qs,
    hwell, fun hq v => QuantumState.applyTree_eq_iff.mpr ⟨fun op hop => ?_, ?_⟩⟩
  · exact (hwell op hop).fits fun r hr => List.mem_singleton.mp hr ▸ hq
  · rw [QuantumState.wave_scale, toComplex_unitPhase]
    exact (congrArg (· v.wave) hact).symm

/-! ### Circuits -/

namespace Circuit

variable {c : Circuit ℝ}

theorem standard_tolerance_pos : 0 < (Settings.standard : Settings ℝ).tolerance := by
  unfold Settings.standard
  positivity

theorem exists_take_one {α : Type} {c : Circuit α} (hqubits : c.qubits ≠ []) :
    ∃ q ∈ c.qubits, c.qubits.take 1 = [q] := by
  obtain ⟨q, qs, hcons⟩ := List.exists_cons_of_ne_nil hqubits
  rw [hcons]
  exact ⟨q, List.mem_cons_self, by rw [List.take_succ_cons, List.take_zero]⟩

/-- **The tree of a global phase on the first qubit of a circuit** is appended, and the simulation
is multiplied by the phase. -/
theorem exists_append_phaseTree (hqubits : c.qubits ≠ []) {s : Settings ℝ} (hpos : 0 < s.tolerance)
    {phase : Amplitude ℝ} (hphase : |phase.norm - 1| ≤ s.tolerance) :
    ∃ tree, phaseTree s [phase] (c.qubits.take 1) = .ok tree ∧
      c.append tree = .ok { c with trees := c.trees ++ [tree] } ∧
      ∀ v : QuantumState ℝ c.width, c.simulate = .ok v →
        ({ c with trees := c.trees ++ [tree] } : Circuit ℝ).simulate =
          .ok (v.scale (unitPhase phase) : QuantumState ℝ c.width) := by
  obtain ⟨q, hq, hfirst⟩ := exists_take_one hqubits
  obtain ⟨tree, htree, hwell, happly⟩ := exists_phaseTree hpos hphase q []
  refine ⟨tree, hfirst ▸ htree, append_eq_ok_iff.mpr ⟨fun op hop => ?_, rfl⟩,
    fun v hv => simulate_append hv (happly (bit_lt_width hq) v)⟩
  exact (hwell op hop).mono fun r hr => List.mem_singleton.mp hr ▸ hq

theorem exists_shiftPhase (hqubits : c.qubits ≠ []) {phase : Amplitude ℝ}
    (hphase : |phase.norm - 1| ≤ (Settings.standard : Settings ℝ).tolerance) :
    ∃ tree, c.shiftPhase phase = .ok { c with trees := c.trees ++ [tree] } ∧
      ∀ v : QuantumState ℝ c.width, c.simulate = .ok v →
        ({ c with trees := c.trees ++ [tree] } : Circuit ℝ).simulate =
          .ok (v.scale (unitPhase phase) : QuantumState ℝ c.width) := by
  obtain ⟨tree, htree, happend, hsimulate⟩ :=
    exists_append_phaseTree hqubits standard_tolerance_pos hphase
  exact ⟨tree, shiftPhase_ok_iff.mpr ⟨tree, htree, happend⟩, hsimulate⟩

/-- **A global phase multiplies every state by the phase.** With a positive tolerance, the tree for
a number of nearly length one is built on any register that has a qubit, and it multiplies every
amplitude of every state that has the first of these by the phase of the number. So a circuit with a
qubit, however it was reached, takes any phase of length one, and its simulation is multiplied by
that phase. -/
theorem phase_scales :
    (∀ (s : Settings ℝ) (phase : Amplitude ℝ) (q : Qubit) (qs : List Qubit), 0 < s.tolerance →
      |phase.norm - 1| ≤ s.tolerance →
      ∃ tree, phaseTree s [phase] (q :: qs) = .ok tree ∧
        ∀ (n : ℕ) (v : QuantumState ℝ n), q.bit < n → ∃ w, v.applyTree tree = (w, none) ∧
          ∀ i (hi : i < 2 ^ n),
            w.amps[i].toComplex = exp (phase.arg * I) * v.amps[i].toComplex) ∧
    ∀ c : Circuit ℝ, Reached c → c.qubits ≠ [] → ∀ phase : Amplitude ℝ, phase.norm = 1 →
      ∃ (tree : GateTree ℝ) (v w : QuantumState ℝ c.width),
        c.shiftPhase phase = .ok { c with trees := c.trees ++ [tree] } ∧
        c.simulate = .ok v ∧
        ({ c with trees := c.trees ++ [tree] } : Circuit ℝ).simulate = .ok w ∧
        ∀ i (hi : i < 2 ^ c.width),
          w.amps[i].toComplex = phase.toComplex * v.amps[i].toComplex := by
  constructor
  · intro s phase q qs hpos hphase
    obtain ⟨tree, htree, -, happly⟩ := exists_phaseTree hpos hphase q qs
    refine ⟨tree, htree, fun n v hq => ⟨_, happly hq v, fun i hi => ?_⟩⟩
    rw [QuantumState.toComplex_getElem_scale, toComplex_unitPhase]
  · intro c hc hqubits phase hphase
    have hlength : |phase.norm - 1| ≤ (Settings.standard : Settings ℝ).tolerance := by
      rw [hphase, sub_self, abs_zero]
      exact standard_tolerance_pos.le
    obtain ⟨tree, htree, hsimulate⟩ := exists_shiftPhase hqubits hlength
    obtain ⟨v, hv⟩ := hc.sound.exists_simulate
    refine ⟨tree, v, _, htree, hv, hsimulate v hv, fun i hi => ?_⟩
    rw [QuantumState.toComplex_getElem_scale, unitPhase_of_norm_eq_one hphase]

/-- The phase `i`, on the second qubit of a state of three, and on a circuit of two qubits, where it
is the amplitude of the state in which both are zero. -/
theorem phase_scales_i :
    (∃ tree, phaseTree (⟨1 / 8, true⟩ : Settings ℝ) [⟨0, 1⟩] [⟨1⟩] = .ok tree ∧
      ∀ v : QuantumState ℝ 3, ∃ w, v.applyTree tree = (w, none) ∧
        ∀ i (hi : i < 2 ^ 3), w.amps[i].toComplex = I * v.amps[i].toComplex) ∧
    ∃ (d : Circuit ℝ) (w : QuantumState ℝ d.width),
      (withQubits "pair" 2).shiftPhase ⟨0, 1⟩ = .ok d ∧ d.simulate = .ok w ∧
        w.amps[0].toComplex = I := by
  have hnorm : (⟨0, 1⟩ : Amplitude ℝ).norm = 1 := by
    rw [Amplitude.norm_eq]
    exact norm_I
  have hexp : exp ((⟨0, 1⟩ : Amplitude ℝ).arg * I) = I := by
    rw [← toComplex_unitPhase, unitPhase_of_norm_eq_one hnorm]
    rfl
  obtain ⟨hstates, hcircuits⟩ := phase_scales
  constructor
  · obtain ⟨tree, htree, happly⟩ := hstates ⟨1 / 8, true⟩ ⟨0, 1⟩ ⟨1⟩ [] (by norm_num)
      (by rw [hnorm]; norm_num)
    refine ⟨tree, htree, fun v => ?_⟩
    obtain ⟨w, hw, hamps⟩ := happly 3 v (by decide)
    exact ⟨w, hw, fun i hi => by rw [hamps i hi, hexp]⟩
  · obtain ⟨tree, v, w, htree, hv, hw, hamps⟩ := hcircuits (withQubits "pair" 2)
      (.withQubits "pair" 2) (by decide) ⟨0, 1⟩ hnorm
    obtain rfl : .zero _ = v := Except.ok.inj hv
    refine ⟨⟨"pair", [⟨0⟩, ⟨1⟩], [tree], 2⟩, w, htree, hw, (hamps 0 (by decide)).trans ?_⟩
    rw [QuantumState.getElem_zero]
    exact mul_one I

end Circuit

end StatePrep
