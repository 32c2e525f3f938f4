import StatePrep.Proofs.Circuit.Runs
import StatePrep.Proofs.State.InnerProduct

/-! # Growth of a circuit

A qubit added to a circuit stays zero until a gate names it. The simulation starts anew on a wider
state, but what the gates do to a wave does not depend on the width (`wave_simulate`), so the
amplitudes are those of the circuit before, followed by zeros (`Sound.simulate_addQubit`).

A circuit that has taken a request takes it as well with one more qubit, and the two steps can be
exchanged (`perform_addQubit`). So in a run of requests that all succeed the qubits can be added at
the beginning, and the run ends in the same circuit (`performAll_qubitsFirst`). -/

namespace StatePrep

namespace QuantumState

variable {m n : ℕ}

theorem toList_eq_append_of_wave_eq {v : QuantumState ℝ m} {w : QuantumState ℝ n} (hmn : m ≤ n)
    (hwave : w.wave = v.wave) : w.toList = v.toList ++ List.replicate (2 ^ n - 2 ^ m) 0 := by
  have hle : 2 ^ m ≤ 2 ^ n := Nat.pow_le_pow_right two_pos hmn
  have hv : v.toList.length = 2 ^ m := v.amps.length_toList
  have hw : w.toList.length = 2 ^ n := w.amps.length_toList
  refine List.ext_getElem (by simp [hv, hw, hle]) fun i hi _ => Amplitude.toComplex_injective ?_
  rw [hw] at hi
  have hat : w.wave i = w.toList[i].toComplex := wave_of_lt w hi
  rw [← hat, hwave]
  by_cases him : i < 2 ^ m
  · rw [List.getElem_append_left (hv.symm ▸ him)]
    exact wave_of_lt v him
  · rw [List.getElem_append_right (by omega), List.getElem_replicate]
    exact wave_of_not_lt v him

end QuantumState

namespace Circuit

open GateTree

/-! ### One more qubit -/

section State

variable {α : Type} {c : Circuit α}

theorem width_addQubit (c : Circuit α) :
    c.addQubit.2.width = max c.width (c.nextNumber.toNat + 1) :=
  List.foldl_append

theorem Sound.width_addQubit_eq (h : c.Sound) (hlt : c.qubits.length < 2 ^ 32) :
    c.addQubit.2.width = c.qubits.length + 1 := by
  rw [width_addQubit, h.width_eq hlt, h.next, UInt32.toNat_ofNat_of_lt' hlt]
  exact Nat.max_eq_right (Nat.le_succ _)

/-- **A new qubit is zero**: the amplitudes are those of the circuit without it, then zeros. -/
theorem Sound.simulate_addQubit {c : Circuit ℝ} (h : c.Sound) :
    ∃ (v : QuantumState ℝ c.width) (w : QuantumState ℝ c.addQubit.2.width),
      c.simulate = .ok v ∧ c.addQubit.2.simulate = .ok w ∧
      w.toList = v.toList ++ List.replicate (2 ^ c.addQubit.2.width - 2 ^ c.width) 0 := by
  obtain ⟨v, hv⟩ := h.exists_simulate
  obtain ⟨w, hw⟩ := h.addQubit.exists_simulate
  refine ⟨v, w, hv, hw, QuantumState.toList_eq_append_of_wave_eq ?_ ?_⟩
  · rw [width_addQubit]
    exact Nat.le_max_left _ _
  · exact (wave_simulate hw).trans (wave_simulate hv).symm

end State

/-! ### Runs of requests that succeed -/

variable {α : Type} [Analytic α] {c d e : Circuit α}

def Request.isAddQubit : Request α → Bool
  | .addQubit => true
  | _ => false

/-- The circuit after requests that all succeed, or the error of the first one that fails. -/
def performAll (c : Circuit α) (rs : List (Request α)) : Except (PrepError α) (Circuit α) :=
  rs.foldlM perform c

/-- The same requests with all qubits added first. -/
def qubitsFirst (rs : List (Request α)) : List (Request α) :=
  rs.filter (·.isAddQubit) ++ rs.filter (!·.isAddQubit)

theorem performAll_nil_eq_ok_iff : c.performAll [] = .ok d ↔ c = d :=
  ⟨Except.ok.inj, congrArg _⟩

theorem performAll_cons_eq_ok_iff {r : Request α} {rs : List (Request α)} :
    c.performAll (r :: rs) = .ok d ↔ ∃ e, c.perform r = .ok e ∧ e.performAll rs = .ok d := by
  rw [performAll, List.foldlM_cons, bind_eq_ok_iff]
  rfl

theorem performAll_append_eq_ok_iff {rs ss : List (Request α)} :
    c.performAll (rs ++ ss) = .ok d ↔ ∃ e, c.performAll rs = .ok e ∧ e.performAll ss = .ok d := by
  rw [performAll, List.foldlM_append, bind_eq_ok_iff]
  rfl

theorem Reached.performAll (h : Reached c) {rs : List (Request α)}
    (hrun : c.performAll rs = .ok d) : Reached d := by
  induction rs generalizing c with
  | nil => exact performAll_nil_eq_ok_iff.mp hrun ▸ h
  | cons r rs ih =>
    obtain ⟨e, hr, hrun⟩ := performAll_cons_eq_ok_iff.mp hrun
    exact ih (after_of_perform hr ▸ h.after r) hrun

/-! ### The qubits first -/

omit [Analytic α] in
theorem append_addQubit {t : GateTree α} (h : c.append t = .ok d) :
    c.addQubit.2.append t = .ok d.addQubit.2 := by
  obtain ⟨hleaves, rfl⟩ := append_eq_ok_iff.mp h
  exact append_eq_ok_iff.mpr
    ⟨fun op hop => (hleaves op hop).mono fun _ => List.mem_append_left _, rfl⟩

/-- A global phase is on a qubit, and if there is one it stays the first. -/
theorem phaseTree_addQubit {phase : Amplitude α} {tree : GateTree α}
    (h : phaseTree .standard [phase] (c.qubits.take 1) = .ok tree) :
    phaseTree .standard [phase] (c.addQubit.2.qubits.take 1) = .ok tree := by
  cases hqubits : c.qubits with
  | nil =>
    rw [hqubits] at h
    obtain ⟨-, -, h⟩ := bind_eq_ok_iff.mp h
    cases h
  | cons q qs =>
    have hmore : c.addQubit.2.qubits = q :: (qs ++ [c.addQubit.1]) :=
      congrArg (· ++ [c.addQubit.1]) hqubits
    rw [hmore]
    rwa [hqubits] at h

/-- **A qubit can be added before a request** that succeeds instead of after it. -/
theorem perform_addQubit {r : Request α} (hr : r.isAddQubit = false) (h : c.perform r = .ok d) :
    c.addQubit.2.perform r = .ok d.addQubit.2 := by
  cases r with
  | addQubit => cases hr
  | gate gate operands =>
    exact mapError_eq_ok_iff.mpr (append_addQubit (mapError_eq_ok_iff.mp h))
  | append t => exact mapError_eq_ok_iff.mpr (append_addQubit (mapError_eq_ok_iff.mp h))
  | prepare s amps register =>
    obtain ⟨⟨phase, d⟩, hprepare, rfl⟩ := map_eq_ok_iff.mp h
    obtain ⟨hcheck, p, hp, hphase, happend⟩ := prepare_ok_iff.mp hprepare
    obtain ⟨hmem, hnodup⟩ := checkQubits_eq_ok_iff.mp hcheck
    refine map_eq_ok_iff.mpr ⟨(phase, d.addQubit.2), prepare_ok_iff.mpr ?_, rfl⟩
    exact ⟨checkQubits_eq_ok_iff.mpr ⟨fun q hq => List.mem_append_left _ (hmem q hq), hnodup⟩,
      p, hp, hphase, append_addQubit happend⟩
  | shiftPhase phase =>
    obtain ⟨tree, htree, happend⟩ := shiftPhase_ok_iff.mp h
    exact shiftPhase_ok_iff.mpr ⟨tree, phaseTree_addQubit htree, append_addQubit happend⟩

theorem performAll_cons_of_adds {r : Request α} (hr : r.isAddQubit = false)
    {adds : List (Request α)} (hadds : ∀ a ∈ adds, a.isAddQubit = true)
    (h : c.performAll (r :: adds) = .ok d) : c.performAll (adds ++ [r]) = .ok d := by
  induction adds generalizing c with
  | nil => exact h
  | cons a adds ih =>
    obtain ⟨ha, hlater⟩ := List.forall_mem_cons.mp hadds
    obtain ⟨e, hperform, h⟩ := performAll_cons_eq_ok_iff.mp h
    cases a with
    | addQubit =>
      refine performAll_cons_eq_ok_iff.mpr ⟨c.addQubit.2, rfl, ih hlater ?_⟩
      exact performAll_cons_eq_ok_iff.mpr ⟨e.addQubit.2, perform_addQubit hr hperform, h⟩
    | gate | append | prepare | shiftPhase => cases ha

/-- **All qubits can be added first** in a run of requests that succeed, and it ends in the same
circuit. -/
theorem performAll_qubitsFirst {rs : List (Request α)} (h : c.performAll rs = .ok d) :
    c.performAll (qubitsFirst rs) = .ok d := by
  induction rs generalizing c with
  | nil => exact h
  | cons r rs ih =>
    obtain ⟨e, hperform, h⟩ := performAll_cons_eq_ok_iff.mp h
    have hrest := ih h
    cases hr : r.isAddQubit with
    | true =>
      rw [qubitsFirst, List.filter_cons_of_pos hr, List.filter_cons_of_neg (by simp [hr])]
      exact performAll_cons_eq_ok_iff.mpr ⟨e, hperform, hrest⟩
    | false =>
      rw [qubitsFirst, List.filter_cons_of_neg (by simp [hr]),
        List.filter_cons_of_pos (by simp [hr]), List.append_cons]
      obtain ⟨f, hadds, hothers⟩ := performAll_append_eq_ok_iff.mp hrest
      refine performAll_append_eq_ok_iff.mpr ⟨f, performAll_cons_of_adds hr ?_ ?_, hothers⟩
      · exact fun a ha => (List.mem_filter.mp ha).2
      · exact performAll_cons_eq_ok_iff.mpr ⟨e, hperform, hadds⟩

/-- **A qubit can be added at any time.** The circuit with the new qubit can be simulated as well as
the one without it, and the amplitudes are the same, followed by zeros: by `2 ^ n` of them where `n`
is the number of qubits so far, if that is less than `2 ^ 32`. A run of requests that all succeed
does so too if all qubits are added first, and it ends in the same circuit; that circuit can be
simulated if the first one was reached. -/
theorem addQubit_anytime :
    (∀ c : Circuit ℝ, Reached c →
      ∃ (v : QuantumState ℝ c.width) (w : QuantumState ℝ c.addQubit.2.width),
        c.simulate = .ok v ∧ c.addQubit.2.simulate = .ok w ∧
        w.toList = v.toList ++ List.replicate (2 ^ c.addQubit.2.width - 2 ^ c.width) 0 ∧
        (c.qubits.length < 2 ^ 32 →
          c.width = c.qubits.length ∧ c.addQubit.2.width = c.qubits.length + 1 ∧
          w.toList = v.toList ++ List.replicate (2 ^ c.qubits.length) 0)) ∧
    ∀ (α : Type) [Analytic α] (c d : Circuit α) (rs : List (Request α)),
      c.performAll rs = .ok d →
      c.performAll (qubitsFirst rs) = .ok d ∧ (Reached c → ∃ v, d.simulate = .ok v) := by
  refine ⟨fun c hc => ?_, fun α _ c d rs hrun => ⟨performAll_qubitsFirst hrun, fun hc => ?_⟩⟩
  · obtain ⟨v, w, hv, hw, hlist⟩ := hc.sound.simulate_addQubit
    refine ⟨v, w, hv, hw, hlist, fun hlt => ?_⟩
    have hwidth := hc.sound.width_eq hlt
    have hmore := hc.sound.width_addQubit_eq hlt
    have hzeros : 2 ^ c.addQubit.2.width - 2 ^ c.width = 2 ^ c.qubits.length := by
      rw [hmore, hwidth, Nat.pow_succ]
      omega
    rw [hzeros] at hlist
    exact ⟨hwidth, hmore, hlist⟩
  · exact (hc.performAll hrun).sound.exists_simulate

/-- A flip on a circuit of one qubit, a second qubit, and its flip by the first: the qubit adds two
zeros, and the run is the one that begins with both qubits. -/
theorem addQubit_anytime_pair :
    (∃ (v : QuantumState ℝ 1) (w : QuantumState ℝ 2),
      w.toList = v.toList ++ [0, 0] ∧
      (⟨"pair", [⟨0⟩], [.leaf ⟨.x, [⟨0⟩]⟩], 1⟩ : Circuit ℝ).simulate = .ok v ∧
      (⟨"pair", [⟨0⟩, ⟨1⟩], [.leaf ⟨.x, [⟨0⟩]⟩], 2⟩ : Circuit ℝ).simulate = .ok w) ∧
    ∃ c d : Circuit ℝ, c = withQubits "pair" 1 ∧
      c.performAll [.gate .x [⟨0⟩], .addQubit, .gate .cx [⟨0⟩, ⟨1⟩]] = .ok d ∧
      c.performAll [.addQubit, .gate .x [⟨0⟩], .gate .cx [⟨0⟩, ⟨1⟩]] = .ok d := by
  have hflip : (withQubits "pair" 1 : Circuit ℝ).perform (.gate .x [⟨0⟩]) =
      .ok ⟨"pair", [⟨0⟩], [.leaf ⟨.x, [⟨0⟩]⟩], 1⟩ :=
    perform_gate ⟨rfl, by decide, by decide⟩
  constructor
  · have hreached := (Reached.withQubits "pair" 1).after (.gate (.x : Gate ℝ) [⟨0⟩])
    rw [after_of_perform hflip] at hreached
    obtain ⟨v, w, hv, hw, -, hlist⟩ := addQubit_anytime.1 _ hreached
    exact ⟨v, w, (hlist (by decide)).2.2, hv, hw⟩
  · have hcx : (⟨"pair", [⟨0⟩, ⟨1⟩], [.leaf ⟨.x, [⟨0⟩]⟩], 2⟩ : Circuit ℝ).perform
        (.gate .cx [⟨0⟩, ⟨1⟩]) = .ok _ :=
      perform_gate ⟨rfl, by decide, by decide⟩
    have hrun : (withQubits "pair" 1 : Circuit ℝ).performAll
        [.gate .x [⟨0⟩], .addQubit, .gate .cx [⟨0⟩, ⟨1⟩]] = .ok _ :=
      performAll_cons_eq_ok_iff.mpr ⟨_, hflip, performAll_cons_eq_ok_iff.mpr ⟨_, rfl,
        performAll_cons_eq_ok_iff.mpr ⟨_, hcx, rfl⟩⟩⟩
    exact ⟨_, _, rfl, hrun, (addQubit_anytime.2 ℝ _ _ _ hrun).1⟩

end Circuit

end StatePrep
