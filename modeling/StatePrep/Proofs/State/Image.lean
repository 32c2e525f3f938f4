import StatePrep.Proofs.State.Register
import StatePrep.Proofs.State.Sequence

/-! # The image of a state under an operation

An operation either leaves a state alone with an error or replaces it. `Operation.Refused` says why
it is refused, the number of operands before any of them and the operands in their order. Otherwise
the new amplitude at an index is a combination of old amplitudes at this index and at the one that
differs from it in the bit of the target (`Operation.image`), all of them read before any is
replaced. `apply_outcome` says that the scan over the indices, which replaces amplitudes while it
reads others, comes to the same.

No law of arithmetic is needed. -/

namespace StatePrep

variable {α : Type} {n : ℕ}

/-- The index with bit `t` set. -/
def setBit (t i : ℕ) : ℕ := i ||| 2 ^ t

/-- The amplitude at an index, zero where the state has none. -/
def QuantumState.amplitude [Scalar α] (v : QuantumState α n) (i : ℕ) : Amplitude α :=
  if h : i < 2 ^ n then v.amps[i] else 0

theorem QuantumState.amplitude_of_lt [Scalar α] (v : QuantumState α n) {i : ℕ} (h : i < 2 ^ n) :
    v.amplitude i = v.amps[i] := dif_pos h

namespace Operation

/-! ### Refused operations -/

/-- Why an operation is refused by a state of `n` qubits: it has a wrong number of operands, or else
an operand lies outside the state, and the first such operand is named. -/
inductive Refused (n : ℕ) (op : Operation α) : CircuitError → Prop where
  | operandCount (hlen : op.operands.length ≠ op.gate.arity) :
    Refused n op (.operandCount op.name op.gate.arity.toUInt32 op.operands.length.toUInt32)
  | unknownQubit {q : Qubit} {before after : List Qubit}
    (hlen : op.operands.length = op.gate.arity) (hops : op.operands = before ++ q :: after)
    (hbefore : ∀ p ∈ before, p.bit < n) (hq : n ≤ q.bit) :
    Refused n op (.unknownQubit q op.name)

theorem exists_refused_iff {op : Operation α} : (∃ e, op.Refused n e) ↔
    op.operands.length ≠ op.gate.arity ∨ ∃ q ∈ op.operands, n ≤ q.bit := by
  constructor
  · rintro ⟨e, hlen | ⟨-, hops, -, hq⟩⟩
    · exact .inl hlen
    · exact .inr ⟨_, by rw [hops]; simp, hq⟩
  · intro h
    by_cases hlen : op.operands.length = op.gate.arity
    · obtain ⟨q, hq, hn⟩ := h.resolve_left (not_not.mpr hlen)
      obtain ⟨first, hfirst⟩ := Option.isSome_iff_exists.mp
        (List.find?_isSome (p := fun q : Qubit => decide (n ≤ q.bit)) |>.mpr
          ⟨q, hq, decide_eq_true hn⟩)
      obtain ⟨hout, before, after, hops, hbefore⟩ := List.find?_eq_some_iff_append.mp hfirst
      refine ⟨_, .unknownQubit hlen hops (fun p hp => ?_) (of_decide_eq_true hout)⟩
      simpa using hbefore p hp
    · exact ⟨_, .operandCount hlen⟩

theorem fits_of_not_refused {op : Operation α} (h : ∀ e, ¬ op.Refused n e) : op.Fits n := by
  have hnone := exists_refused_iff.not.mp (not_exists.mpr h)
  push Not at hnone
  exact hnone

/-! ### Images -/

variable [Analytic α]

/-- The amplitude at an index after an operation, from the amplitudes before it. A matrix combines
the amplitudes for the two values of its qubit, and a controlled flip takes the amplitude over from
the other value of the target where the control is set. A wrong number of operands does nothing. -/
def image (op : Operation α) (old : ℕ → Amplitude α) (i : ℕ) : Amplitude α :=
  match op.gate.matrix?, op.operands with
  | some m, [q] =>
    if i.testBit q.bit then m.c * old (clearBit q.bit i) + m.d * old i
    else m.a * old i + m.b * old (setBit q.bit i)
  | none, [control, target] =>
    if i.testBit control.bit ∧ control ≠ target then old (partner target.bit i) else old i
  | _, _ => old i

theorem image_single {g : Gate α} {m : Matrix2 α} (h : g.matrix? = some m) (q : Qubit)
    (old : ℕ → Amplitude α) (i : ℕ) : (single g q).image old i =
      if i.testBit q.bit then m.c * old (clearBit q.bit i) + m.d * old i
      else m.a * old i + m.b * old (setBit q.bit i) := by
  unfold image single
  rw [h]

theorem image_cx (control target : Qubit) (old : ℕ → Amplitude α) (i : ℕ) :
    (cx control target).image old i =
      if i.testBit control.bit ∧ control ≠ target then old (partner target.bit i) else old i := rfl

end Operation

namespace QuantumState

open Operation

variable [Analytic α]

/-! ### Errors -/

theorem locate_eq_error {gate : String} {q : Qubit} (h : n ≤ q.bit) :
    locate n gate q = .error (.unknownQubit q gate) := dif_neg (not_lt.mpr h)

theorem apply_of_refused {op : Operation α} {e : CircuitError} (h : op.Refused n e)
    (v : QuantumState α n) : v.apply op = .error e := by
  cases h with
  | operandCount hlen =>
    unfold apply
    split
    · next m q hm hqs => exact absurd (by rw [hqs, arity_of_matrix? hm]; rfl) hlen
    · next c t hm hqs => exact absurd (by rw [hqs, matrix?_eq_none_iff.mp hm]; rfl) hlen
    · rfl
  | @unknownQubit q before after hlen hops hbefore hq =>
    rcases cases_of_length hlen with ⟨g, m, p, rfl, hm⟩ | ⟨c, t, rfl⟩
    · have hmem : q ∈ (single g p).operands := by rw [hops]; simp
      obtain rfl : q = p := List.mem_singleton.mp hmem
      simp [apply, single, hm, locate_eq_error hq, bind, Except.bind, name]
    · cases before with
      | nil =>
        obtain rfl : c = q := (List.cons.inj hops).1
        simp [apply, cx, Gate.matrix?, locate_eq_error hq, bind, Except.bind, name]
      | cons p before =>
        obtain ⟨rfl, hrest⟩ := List.cons.inj hops
        have hmem : q ∈ [t] := by rw [hrest]; simp
        obtain rfl : q = t := List.mem_singleton.mp hmem
        have hcontrol : locate n "cx" c = .ok ⟨c.bit, hbefore c (by simp)⟩ :=
          locate_eq_ok_iff.mpr rfl
        simp [apply, cx, Gate.matrix?, hcontrol, locate_eq_error hq, bind, Except.bind, name,
          Gate.name]

theorem apply_eq_error_iff {op : Operation α} {v : QuantumState α n} {e : CircuitError} :
    v.apply op = .error e ↔ op.Refused n e := by
  refine ⟨fun h => ?_, fun h => apply_of_refused h v⟩
  by_cases hrefused : ∃ e, op.Refused n e
  · obtain ⟨e', he'⟩ := hrefused
    obtain rfl := Except.error.inj (h.symm.trans (apply_of_refused he' v))
    exact he'
  · obtain ⟨w, hw⟩ := exists_apply_iff_fits (v := v).mpr
      (fits_of_not_refused (not_exists.mp hrefused))
    cases h.symm.trans hw

/-! ### Amplitudes -/

/-- **A scan gives every index its image.** -/
theorem amplitude_apply {op : Operation α} {v w : QuantumState α n} (h : v.apply op = .ok w) {i : ℕ}
    (hi : i < 2 ^ n) : w.amplitude i = op.image v.amplitude i := by
  rw [amplitude_of_lt w hi]
  rcases apply_eq_ok_iff.mp h with ⟨g, m, q, t, rfl, hm, hq, rfl⟩ | ⟨q, r, c, t, rfl, hq, hr, rfl⟩
  · have hp := partner_lt t.isLt hi
    rw [image_single hm, hq, getElem_applyMatrix, amplitude_of_lt v hi]
    cases hbit : i.testBit t with
    | false =>
      have hset : setBit t i = partner t i := or_two_pow_eq_partner hbit
      rw [hset, amplitude_of_lt v hp]
      rfl
    | true =>
      have hclear : clearBit t i = partner t i := if_pos hbit
      rw [hclear, amplitude_of_lt v hp]
      rfl
  · have hp := partner_lt t.isLt hi
    have hne : c ≠ t ↔ q ≠ r := by rw [ne_eq, ne_eq, Fin.ext_iff, ← hq, ← hr, Qubit.bit_inj]
    rw [image_cx, hq, hr, getElem_applyCx, amplitude_of_lt v hi, amplitude_of_lt v hp]
    simp only [hne]

/-! ### The outcome -/

theorem applyTree_leaf (op : Operation α) (v : QuantumState α n) :
    v.applyTree (.leaf op) = match v.apply op with
      | .ok w => (w, none)
      | .error e => (v, some e) := by
  rw [applyTree_eq_applyAll, GateTree.flatten, applyAll]
  cases v.apply op <;> rfl

/-- **The outcome of an operation.** It is refused exactly if it has a wrong number of operands or
an operand outside the state. The error tells of the number first and else of the first operand
outside, and the state is as before. An operation that is not refused gives every index its image,
for as many qubits and amplitudes as before. -/
theorem apply_outcome (op : Operation α) (v : QuantumState α n) :
    ((∃ e, v.apply op = .error e) ↔
      op.operands.length ≠ op.gate.arity ∨ ∃ q ∈ op.operands, n ≤ q.bit) ∧
    (∀ e, v.apply op = .error e ↔ op.Refused n e) ∧
    (∀ e, op.Refused n e → v.applyTree (.leaf op) = (v, some e)) ∧
    ((∀ e, ¬ op.Refused n e) → ∃ w, v.apply op = .ok w ∧ v.applyTree (.leaf op) = (w, none) ∧
      w.numQubits = n ∧ w.toList.length = 2 ^ n ∧
        ∀ i < 2 ^ n, w.amplitude i = op.image v.amplitude i) := by
  refine ⟨?_, fun e => apply_eq_error_iff, fun e he => ?_, fun h => ?_⟩
  · simp only [apply_eq_error_iff]
    exact exists_refused_iff
  · rw [applyTree_leaf, apply_of_refused he]
  · obtain ⟨w, hw⟩ := exists_apply_iff_fits (v := v).mpr (fits_of_not_refused h)
    refine ⟨w, hw, ?_, rfl, w.amps.length_toList, fun i hi => amplitude_apply hw hi⟩
    rw [applyTree_leaf, hw]

end QuantumState

end StatePrep
