import StatePrep.Proofs.Circuit.Method
import StatePrep.Proofs.State.Placed

/-! # Runs of a circuit

A circuit begins without qubits or with a number of them and then takes requests, some of which fail
(`Reached`). A request does nothing, adds a qubit or appends a tree (`after_cases`), so two facts
hold all along (`Sound`): the qubits are numbered in the order they were added, and every stored
leaf is well formed over them.

Numbers are words of 32 bits. As long as there are fewer than `2 ^ 32` qubits they are the numbers
below the width. The width is above every qubit in any case (`bit_lt_width`), so an operation is
accepted by the circuit only if the simulator can apply it. The simulation of a circuit that was
reached succeeds, with a state of length one over the reals (`invariant_of_reached`). -/

namespace StatePrep

namespace Circuit

open GateTree

variable {α : Type}

/-! ### Requests -/

/-- A call that may change a circuit. Preparing with standard settings is one way to prepare. -/
inductive Request (α : Type) where
  | addQubit
  /-- One gate on some operands. -/
  | gate (gate : Gate α) (operands : List Qubit)
  | append (t : GateTree α)
  | prepare (s : Settings α) (amps : List (Amplitude α)) (register : List Qubit)
  | shiftPhase (phase : Amplitude α)

variable [Analytic α]

/-- The circuit after a request, whether it succeeds or fails. -/
def after (c : Circuit α) : Request α → Circuit α
  | .addQubit => (Method.call (Method.addQubit : Method α CircuitError Qubit) c).2
  | .gate gate operands => (Method.call (Method.append (.leaf ⟨gate, operands⟩)) c).2
  | .append t => (Method.call (Method.append t) c).2
  | .prepare s amps register => (Method.call (Method.prepare s amps register) c).2
  | .shiftPhase phase => (Method.call (Method.shiftPhase phase) c).2

/-- The circuits that requests can lead to. -/
inductive Reached : Circuit α → Prop
  | empty (name : String) : Reached (empty name)
  | withQubits (name : String) (count : ℕ) : Reached (withQubits name count)
  | after {c : Circuit α} (h : Reached c) (r : Request α) : Reached (c.after r)

variable {c d : Circuit α}

/-- The circuit after a request that succeeds, or the error that refuses it. -/
def perform (c : Circuit α) : Request α → Except (PrepError α) (Circuit α)
  | .addQubit => .ok c.addQubit.2
  | .gate gate operands => (c.appendGate gate operands).mapError .circuit
  | .append t => (c.append t).mapError .circuit
  | .prepare s amps register => (c.prepare s amps register).map Prod.snd
  | .shiftPhase phase => c.shiftPhase phase

theorem after_eq_perform (c : Circuit α) (r : Request α) :
    c.after r = (c.perform r).toOption.getD c := by
  cases r with
  | addQubit =>
    rw [after, Method.call_addQubit, perform]
    rfl
  | gate gate operands =>
    rw [after, Method.call_append, perform, appendGate]
    cases c.append (.leaf ⟨gate, operands⟩) <;> rfl
  | append t =>
    rw [after, Method.call_append, perform]
    cases c.append t <;> rfl
  | prepare s amps register =>
    rw [after, Method.call_prepare, perform]
    cases c.prepare s amps register <;> rfl
  | shiftPhase phase =>
    rw [after, Method.call_shiftPhase, perform]
    cases c.shiftPhase phase <;> rfl

theorem after_of_perform {r : Request α} (h : c.perform r = .ok d) : c.after r = d := by
  rw [after_eq_perform, h]
  rfl

theorem prepare_ok_iff {s : Settings α} {amps : List (Amplitude α)} {register : List Qubit}
    {phase : Amplitude α} : c.prepare s amps register = .ok (phase, d) ↔
      c.checkQubits register "initialize" = .ok () ∧
      ∃ p, StatePrep.prepare s amps register = .ok p ∧ p.phase = phase ∧
        c.append p.tree = .ok d := by
  rw [prepare, bind_eq_ok_iff]
  constructor
  · rintro ⟨⟨⟩, hcheck, h⟩
    obtain ⟨p, hp, h⟩ := bind_eq_ok_iff.mp h
    obtain ⟨e, happend, h⟩ := bind_eq_ok_iff.mp h
    obtain ⟨rfl, rfl⟩ := Prod.mk.inj (Except.ok.inj h)
    exact ⟨mapError_eq_ok_iff.mp hcheck, p, hp, rfl, mapError_eq_ok_iff.mp happend⟩
  · rintro ⟨hcheck, p, hp, rfl, happend⟩
    refine ⟨(), mapError_eq_ok_iff.mpr hcheck, bind_eq_ok_iff.mpr ⟨p, hp, ?_⟩⟩
    exact bind_eq_ok_iff.mpr ⟨d, mapError_eq_ok_iff.mpr happend, rfl⟩

theorem prepare_eq_ok {s : Settings α} {amps : List (Amplitude α)} {register : List Qubit}
    {p : Preparation α} (hmem : ∀ q ∈ register, q ∈ c.qubits) (hnodup : register.Nodup)
    (hp : StatePrep.prepare s amps register = .ok p) :
    c.prepare s amps register = .ok (p.phase, { c with trees := c.trees ++ [p.tree] }) :=
  prepare_ok_iff.mpr ⟨checkQubits_eq_ok_iff.mpr ⟨hmem, hnodup⟩, p, hp, rfl,
    append_eq_ok_iff.mpr ⟨fun op hop => (wellFormed_of_prepare hp hnodup op hop).mono hmem, rfl⟩⟩

theorem shiftPhase_ok_iff {phase : Amplitude α} : c.shiftPhase phase = .ok d ↔
    ∃ tree, phaseTree .standard [phase] (c.qubits.take 1) = .ok tree ∧ c.append tree = .ok d := by
  rw [shiftPhase, bind_eq_ok_iff]
  simp only [mapError_eq_ok_iff]

theorem perform_cases {r : Request α} (h : c.perform r = .ok d) :
    d = c.addQubit.2 ∨ ∃ t, c.append t = .ok d := by
  cases r with
  | addQubit => exact .inl (Except.ok.inj h).symm
  | gate gate operands => exact .inr ⟨_, mapError_eq_ok_iff.mp h⟩
  | append t => exact .inr ⟨t, mapError_eq_ok_iff.mp h⟩
  | prepare s amps register =>
    obtain ⟨⟨phase, e⟩, hprepare, rfl⟩ := map_eq_ok_iff.mp h
    obtain ⟨-, p, -, -, happend⟩ := prepare_ok_iff.mp hprepare
    exact .inr ⟨p.tree, happend⟩
  | shiftPhase phase =>
    obtain ⟨tree, -, happend⟩ := shiftPhase_ok_iff.mp h
    exact .inr ⟨tree, happend⟩

/-- **A request** does nothing, adds a qubit, or appends a tree that is accepted. -/
theorem after_cases (c : Circuit α) (r : Request α) :
    c.after r = c ∨ c.after r = c.addQubit.2 ∨ ∃ t, c.append t = .ok (c.after r) := by
  cases h : c.perform r with
  | error e => exact .inl (by rw [after_eq_perform, h]; rfl)
  | ok d =>
    rw [after_of_perform h]
    exact .inr (perform_cases h)

theorem perform_gate {gate : Gate α} {operands : List Qubit}
    (h : (⟨gate, operands⟩ : Operation α).WellFormed c.qubits) :
    c.perform (.gate gate operands) = .ok { c with trees := c.trees ++ [.leaf ⟨gate, operands⟩] } :=
  mapError_eq_ok_iff.mpr
    (append_eq_ok_iff.mpr ⟨fun _ hop => List.mem_singleton.mp hop ▸ h, rfl⟩)

theorem after_gate {gate : Gate α} {operands : List Qubit}
    (h : (⟨gate, operands⟩ : Operation α).WellFormed c.qubits) :
    c.after (.gate gate operands) = { c with trees := c.trees ++ [.leaf ⟨gate, operands⟩] } :=
  after_of_perform (perform_gate h)

theorem after_gate_of_not {gate : Gate α} {operands : List Qubit}
    (h : ¬ (⟨gate, operands⟩ : Operation α).WellFormed c.qubits) :
    c.after (.gate gate operands) = c := by
  have hleaf : (⟨gate, operands⟩ : Operation α) ∈ (leaf ⟨gate, operands⟩).leaves := by
    rw [leaves_eq_flatten]
    exact List.mem_singleton_self _
  obtain ⟨e, he⟩ := Method.exists_call_append_eq_error_iff.mpr ⟨⟨_, hleaf, h⟩, rfl⟩
  exact congrArg Prod.snd he

/-! ### What every request keeps -/

/-- The qubits are numbered in the order they were added, and the stored leaves are well formed over
them. -/
structure Sound (c : Circuit α) : Prop where
  numbered : c.qubits = (List.range c.qubits.length).map fun k => ⟨.ofNat k⟩
  next : c.nextNumber = .ofNat c.qubits.length
  leaves : ∀ op ∈ flattenAll c.trees, op.WellFormed c.qubits

omit [Analytic α]

theorem sound_empty (name : String) : (empty name : Circuit α).Sound :=
  ⟨rfl, rfl, fun _ h => (nomatch h)⟩

theorem Sound.addQubit (h : c.Sound) : c.addQubit.2.Sound := by
  have hqubits : c.addQubit.2.qubits = c.qubits ++ [⟨c.nextNumber⟩] := rfl
  have hlength : c.addQubit.2.qubits.length = c.qubits.length + 1 := by
    rw [hqubits, List.length_append, List.length_singleton]
  constructor
  · rw [hlength, hqubits, List.range_succ, List.map_append, ← h.numbered, h.next]
    rfl
  · rw [hlength, UInt32.ofNat_add, ← h.next]
    rfl
  · exact fun op hop => (h.leaves op hop).mono fun q hq => List.mem_append_left _ hq

theorem sound_withQubits (name : String) (count : ℕ) :
    (withQubits name count : Circuit α).Sound := by
  unfold withQubits
  induction count.toUInt32.toNat with
  | zero => exact sound_empty name
  | succ count ih => exact ih.addQubit

theorem Sound.append (h : c.Sound) {t : GateTree α} (happend : c.append t = .ok d) : d.Sound := by
  obtain ⟨hleaves, rfl⟩ := append_eq_ok_iff.mp happend
  refine ⟨h.numbered, h.next, fun op hop => ?_⟩
  rw [flattenAll_append, List.mem_append] at hop
  rcases hop with hop | hop
  · exact h.leaves op hop
  · exact hleaves op (by simpa [flattenAll] using hop)

variable [Analytic α]

/-- **A request keeps the circuit sound.** -/
theorem Sound.after (h : c.Sound) (r : Request α) : (c.after r).Sound := by
  rcases after_cases c r with hsame | hqubit | ⟨t, happend⟩
  · rwa [hsame]
  · rw [hqubit]
    exact h.addQubit
  · exact h.append happend

/-- **Every circuit reached is sound.** -/
theorem Reached.sound (h : Reached c) : c.Sound := by
  induction h with
  | empty name => exact sound_empty name
  | withQubits name count => exact sound_withQubits name count
  | after _ r ih => exact ih.after r

/-! ### Numbers without wrap-around -/

omit [Analytic α]

theorem Sound.map_bit (h : c.Sound) (hlt : c.qubits.length < 2 ^ 32) :
    c.qubits.map Qubit.bit = List.range c.qubits.length := by
  conv_lhs => rw [h.numbered]
  rw [List.map_map]
  conv_rhs => rw [← List.map_id (List.range c.qubits.length)]
  refine List.map_congr_left fun k hk => ?_
  have hk' := List.mem_range.mp hk
  exact UInt32.toNat_ofNat_of_lt' (hk'.trans hlt)

theorem Sound.mem_qubits_iff (h : c.Sound) (hlt : c.qubits.length < 2 ^ 32) {q : Qubit} :
    q ∈ c.qubits ↔ q.bit < c.qubits.length := by
  rw [← List.mem_range, ← h.map_bit hlt, List.mem_map]
  constructor
  · exact fun hq => ⟨q, hq, rfl⟩
  · rintro ⟨p, hp, hbit⟩
    rwa [← Qubit.bit_inj.mp hbit]

theorem foldl_max_range (n : ℕ) : (List.range n).foldl (fun w k => max w (k + 1)) 0 = n := by
  induction n with
  | zero => rfl
  | succ n ih =>
    rw [List.range_succ, List.foldl_append, ih]
    exact Nat.max_eq_right (Nat.le_succ n)

theorem Sound.width_eq (h : c.Sound) (hlt : c.qubits.length < 2 ^ 32) :
    c.width = c.qubits.length := by
  rw [width, ← foldl_max_range c.qubits.length, ← h.map_bit hlt, List.foldl_map]

/-- **The two checks agree**: what is well formed over the qubits of the circuit is what fits, with
no operand named twice. -/
theorem Sound.wellFormed_iff (h : c.Sound) (hlt : c.qubits.length < 2 ^ 32) {op : Operation α} :
    op.WellFormed c.qubits ↔ op.Fits c.qubits.length ∧ op.operands.Nodup := by
  constructor
  · exact fun hop => ⟨hop.fits fun q hq => (h.mem_qubits_iff hlt).mp hq, hop.nodup⟩
  · exact fun ⟨hfits, hnodup⟩ =>
      ⟨hfits.1, hnodup, fun q hq => (h.mem_qubits_iff hlt).mpr (hfits.2 q hq)⟩

theorem operations_eq_flattenAll (c : Circuit α) : c.operations = flattenAll c.trees := by
  rw [operations, flattenAll_eq_flatMap]
  exact congrArg c.trees.flatMap (funext leaves_eq_flatten)

/-! ### Simulation -/

variable [Analytic α]

theorem foldlM_eq_ok_iff {n : ℕ}
    {step : QuantumState α n → GateTree α → Except CircuitError (QuantumState α n)}
    (hstep : ∀ t v w, step v t = .ok w ↔ v.applyTree t = (w, none)) (ts : List (GateTree α))
    {v w : QuantumState α n} :
    ts.foldlM step v = .ok w ↔ QuantumState.applyAll (flattenAll ts) v = (w, none) := by
  induction ts generalizing v with
  | nil => simp [flattenAll, QuantumState.applyAll, pure, Except.pure]
  | cons t ts ih =>
    rw [List.foldlM_cons, bind_eq_ok_iff, flattenAll, QuantumState.applyAll_append_iff]
    refine exists_congr fun u => and_congr ?_ ih
    rw [hstep, QuantumState.applyTree_eq_applyAll]

theorem simulate_eq_ok_iff {v : QuantumState α c.width} :
    c.simulate = .ok v ↔
      QuantumState.applyAll (flattenAll c.trees) (.zero c.width) = (v, none) := by
  refine foldlM_eq_ok_iff (fun t v w => ?_) c.trees
  rcases v.applyTree t with ⟨u, none | e⟩ <;> simp

theorem simulate_append {t : GateTree α} {v w : QuantumState α c.width} (hv : c.simulate = .ok v)
    (hw : v.applyTree t = (w, none)) :
    ({ c with trees := c.trees ++ [t] } : Circuit α).simulate = .ok w := by
  refine simulate_eq_ok_iff.mpr ?_
  rw [QuantumState.applyTree_eq_applyAll] at hw
  have hlast : flattenAll [t] = t.flatten := List.append_nil _
  rw [flattenAll_append, hlast]
  exact QuantumState.applyAll_append_iff.mpr ⟨v, simulate_eq_ok_iff.mp hv, hw⟩

omit [Analytic α] in
theorem bit_lt_width {q : Qubit} (h : q ∈ c.qubits) : q.bit < c.width := by
  have hmax : ∀ (qs : List Qubit) (w : ℕ), w ≤ qs.foldl (fun w q => max w (q.bit + 1)) w ∧
      ∀ q ∈ qs, q.bit < qs.foldl (fun w q => max w (q.bit + 1)) w := by
    intro qs
    induction qs with
    | nil => exact fun w => ⟨le_rfl, fun q hq => (nomatch hq)⟩
    | cons p qs ih =>
      intro w
      obtain ⟨hstart, hlater⟩ := ih (max w (p.bit + 1))
      refine ⟨(le_max_left _ _).trans hstart, List.forall_mem_cons.mpr ⟨?_, hlater⟩⟩
      exact (Nat.lt_of_succ_le (le_max_right _ _)).trans_le hstart
  exact (hmax c.qubits 0).2 q h

omit [Analytic α] in
theorem Sound.fits (h : c.Sound) : ∀ op ∈ flattenAll c.trees, op.Fits c.width :=
  fun op hop => (h.leaves op hop).fits fun _ => bit_lt_width

theorem Sound.exists_simulate (h : c.Sound) : ∃ v, c.simulate = .ok v := by
  obtain ⟨v, hv⟩ := QuantumState.exists_applyAll_iff_fits.mpr h.fits
  exact ⟨v, simulate_eq_ok_iff.mpr hv⟩

/-- The wave of the simulated state is that of the leaves, whatever the width. -/
theorem wave_simulate {c : Circuit ℝ} {v : QuantumState ℝ c.width} (hv : c.simulate = .ok v) :
    v.wave = Operation.actAll (flattenAll c.trees) ground := by
  rw [QuantumState.wave_of_applyAll (simulate_eq_ok_iff.mp hv), QuantumState.wave_zero]

theorem Sound.norm_simulate {c : Circuit ℝ} (h : c.Sound) {v : QuantumState ℝ c.width}
    (hv : c.simulate = .ok v) : v.norm = 1 := by
  rw [QuantumState.norm_eq_below, wave_simulate hv, Operation.norm_actAll h.fits,
    ← QuantumState.wave_zero, ← QuantumState.norm_eq_below, QuantumState.norm_zero]

/-! ### The invariant -/

/-- **What holds of every circuit reached**, with fewer than `2 ^ 32` qubits: their numbers count up
from zero; every leaf stored has the operands its gate needs, all different and below the count; the
operations are as many as counted; the simulation succeeds, on as many qubits, and over the reals
its state has length one. A tree is refused if one of its leaves is not of that kind, and only then;
the circuit is as it was. -/
theorem invariant_of_reached :
    (∀ (α : Type) [Analytic α] (c : Circuit α), Reached c → c.qubits.length < 2 ^ 32 →
      c.qubits.map Qubit.bit = List.range c.qubits.length ∧
      (∀ t ∈ c.trees, ∀ op ∈ t.leaves, op.Fits c.qubits.length ∧ op.operands.Nodup) ∧
      c.operationCount = c.operations.length ∧
      c.width = c.qubits.length ∧
      (∃ v, c.simulate = .ok v) ∧
      ∀ t : GateTree α, ∀ d, (∃ e, Method.call (Method.append t) c = (.error e, d)) ↔
        (∃ op ∈ t.leaves, ¬ (op.Fits c.qubits.length ∧ op.operands.Nodup)) ∧ d = c) ∧
    ∀ c : Circuit ℝ, Reached c → c.qubits.length < 2 ^ 32 →
      ∀ v, c.simulate = .ok v → v.norm = 1 := by
  refine ⟨fun α _ c hc hlt => ?_, fun c hc _ v hv => hc.sound.norm_simulate hv⟩
  have hsound := hc.sound
  refine ⟨hsound.map_bit hlt, fun t ht op hop => ?_, ?_, hsound.width_eq hlt,
    hsound.exists_simulate, fun t d => ?_⟩
  · rw [leaves_eq_flatten] at hop
    refine (hsound.wellFormed_iff hlt).mp (hsound.leaves op ?_)
    rw [flattenAll_eq_flatMap]
    exact List.mem_flatMap.mpr ⟨t, ht, hop⟩
  · rw [operationCount, operations_eq_flattenAll, length_flattenAll]
  · simp only [← hsound.wellFormed_iff hlt]
    exact Method.exists_call_append_eq_error_iff

/-- On two qubits: the flip of the first by itself is refused, that of the second by the first is
stored, and the state has length one. -/
theorem invariant_of_reached_pair :
    ∃ c : Circuit ℝ,
      c = ((withQubits "pair" 2).after (.gate .cx [⟨0⟩, ⟨0⟩])).after (.gate .cx [⟨0⟩, ⟨1⟩]) ∧
      c.operations.length = 1 ∧ c.width = 2 ∧ ∃ v, c.simulate = .ok v ∧ v.norm = 1 := by
  have hrefused : (withQubits "pair" 2 : Circuit ℝ).after (.gate .cx [⟨0⟩, ⟨0⟩]) =
      withQubits "pair" 2 :=
    after_gate_of_not fun h => absurd h.nodup (by simp)
  have hwell : (⟨.cx, [⟨0⟩, ⟨1⟩]⟩ : Operation ℝ).WellFormed
      (withQubits "pair" 2 : Circuit ℝ).qubits :=
    ⟨rfl, by decide, by decide⟩
  have hstored : (withQubits "pair" 2 : Circuit ℝ).after (.gate .cx [⟨0⟩, ⟨1⟩]) =
      ⟨"pair", [⟨0⟩, ⟨1⟩], [.leaf ⟨.cx, [⟨0⟩, ⟨1⟩]⟩], 2⟩ :=
    after_gate hwell
  have hreached : Reached (⟨"pair", [⟨0⟩, ⟨1⟩], [.leaf ⟨.cx, [⟨0⟩, ⟨1⟩]⟩], 2⟩ : Circuit ℝ) :=
    hstored ▸ (Reached.withQubits "pair" 2).after (.gate .cx [⟨0⟩, ⟨1⟩])
  refine ⟨_, by rw [hrefused, hstored], ?_⟩
  obtain ⟨-, -, hcount, hwidth, ⟨v, hv⟩, -⟩ := invariant_of_reached.1 ℝ _ hreached (by decide)
  exact ⟨hcount.symm, hwidth, v, hv, invariant_of_reached.2 _ hreached (by decide) v hv⟩

end Circuit

end StatePrep
