import StatePrep.Proofs.Wave.Action

/-! # Operations without a common qubit

An operation mixes the two values of one of its operands, by factors that look at its operands only
(`Operation.act_eq_one_or_local`). Two such maps commute if neither looks at the qubit that the
other one changes (`commute_mix`). So operations without a common operand commute
(`Operation.commute_act`), and so do sequences of them (`Operation.commute_actAll`). For the states
of the simulator this is `QuantumState.applyTree_comm`: of two trees on different qubits either may
come first, however they are nested. -/

namespace StatePrep

namespace Operation

/-- A map of waves mixes the two values of one of some qubits, by factors that look at these qubits
only. -/
def Local (qubits : List Qubit) (e : Module.End ℂ Wave) : Prop :=
  ∃ target ∈ qubits, ∃ stay cross, e = mix target.bit stay cross ∧
    ∀ q ∉ qubits, Ignores q.bit stay ∧ Ignores q.bit cross

variable {op other : Operation ℝ} {ops more : List (Operation ℝ)}

theorem Local.commute {qubits others : List Qubit} (hdisjoint : qubits.Disjoint others)
    {e f : Module.End ℂ Wave} (he : Local qubits e) (hf : Local others f) : Commute e f := by
  obtain ⟨s, hs, stay, cross, rfl, hignores⟩ := he
  obtain ⟨t, ht, stay', cross', rfl, hignores'⟩ := hf
  obtain ⟨hstay, hcross⟩ := hignores t fun h => hdisjoint h ht
  obtain ⟨hstay', hcross'⟩ := hignores' s fun h => hdisjoint hs h
  exact commute_mix hstay hcross hstay' hcross'

/-- **An operation acts on its operands only**, or not at all if their number is wrong. -/
theorem act_eq_one_or_local (op : Operation ℝ) : op.act = 1 ∨ Local op.operands op.act := by
  by_cases hlen : op.operands.length = op.gate.arity
  · right
    rcases cases_of_length hlen with ⟨g, m, q, rfl, hm⟩ | ⟨c, t, rfl⟩
    · refine ⟨q, List.mem_singleton_self q, _, _, act_single hm q, fun p hp => ?_⟩
      have hne : p.bit ≠ q.bit := fun h => hp (by simp [single, Qubit.bit_inj.mp h])
      exact ⟨ignores_testBit hne m.stay, ignores_testBit hne m.cross⟩
    · refine ⟨t, by simp [cx], _, _, act_cx c t, fun p hp => ?_⟩
      have hne : p.bit ≠ c.bit := fun h => hp (by simp [cx, Qubit.bit_inj.mp h])
      exact ⟨ignores_testBit hne fun b => if b ∧ c.bit ≠ t.bit then 0 else 1,
        ignores_testBit hne fun b => if b ∧ c.bit ≠ t.bit then 1 else 0⟩
  · left
    unfold act
    split
    · next m q hm hqs => exact absurd (by rw [hqs, arity_of_matrix? hm]; rfl) hlen
    · next c t hm hqs => exact absurd (by rw [hqs, matrix?_eq_none_iff.mp hm]; rfl) hlen
    · rfl

/-- **Operations without a common operand commute.** -/
theorem commute_act (h : op.operands.Disjoint other.operands) : Commute op.act other.act := by
  rcases act_eq_one_or_local op with hop | hop
  · rw [hop]
    exact Commute.one_left _
  · rcases act_eq_one_or_local other with hother | hother
    · rw [hother]
      exact Commute.one_right _
    · exact hop.commute h hother

theorem commute_actAll_act (h : ∀ op ∈ ops, op.operands.Disjoint other.operands) :
    Commute (actAll ops) other.act := by
  induction ops with
  | nil => exact Commute.one_left _
  | cons op ops ih =>
    rw [List.forall_mem_cons] at h
    rw [actAll]
    exact (ih h.2).mul_left (commute_act h.1)

theorem commute_actAll (h : ∀ op ∈ ops, ∀ other ∈ more, op.operands.Disjoint other.operands) :
    Commute (actAll ops) (actAll more) := by
  induction more with
  | nil => exact Commute.one_right _
  | cons other more ih =>
    rw [actAll]
    refine (ih fun op hop => (List.forall_mem_cons.mp (h op hop)).2).mul_right ?_
    exact commute_actAll_act fun op hop => (List.forall_mem_cons.mp (h op hop)).1

end Operation

/-! ### States -/

namespace QuantumState

open Operation

variable {n : ℕ}

/-- **Trees on different qubits commute.** If each of two trees can be applied to a state and no
leaf of the one has an operand in common with a leaf of the other, either of them can be applied
after the other, and both orders end in the same state. -/
theorem applyTree_comm {t u : GateTree ℝ}
    (hdisjoint : ∀ op ∈ t.leaves, ∀ other ∈ u.leaves, op.operands.Disjoint other.operands)
    {v a b : QuantumState ℝ n} (ht : v.applyTree t = (a, none)) (hu : v.applyTree u = (b, none)) :
    ∃ w, a.applyTree u = (w, none) ∧ b.applyTree t = (w, none) := by
  simp only [GateTree.leaves_eq_flatten] at hdisjoint
  obtain ⟨hfits, ha⟩ := applyTree_eq_iff.mp ht
  obtain ⟨hfits', hb⟩ := applyTree_eq_iff.mp hu
  obtain ⟨w, hw, hwave⟩ := applyTree_of_fits hfits' a
  refine ⟨w, hw, applyTree_eq_iff.mpr ⟨hfits, ?_⟩⟩
  rw [hwave, ha, hb, ← Module.End.mul_apply, ← Module.End.mul_apply]
  exact congrArg (· v.wave) (commute_actAll hdisjoint).symm.eq

/-- A rotation with a flip inside a composite, on the outer two of three qubits, and a rotation of
the qubit between them. -/
theorem applyTree_comm_between :
    ∃ a b w : QuantumState ℝ 3,
      (zero 3).applyTree (.composite "outer" [.leaf (.rotation .y 1 ⟨2⟩),
        .composite "flip" [.leaf (.cx ⟨2⟩ ⟨0⟩)]]) = (a, none) ∧
      (zero 3).applyTree (.leaf (.rotation .x 1 ⟨1⟩)) = (b, none) ∧
      a.applyTree (.leaf (.rotation .x 1 ⟨1⟩)) = (w, none) ∧
      b.applyTree (.composite "outer" [.leaf (.rotation .y 1 ⟨2⟩),
        .composite "flip" [.leaf (.cx ⟨2⟩ ⟨0⟩)]]) = (w, none) := by
  obtain ⟨a, ha⟩ := exists_applyTree_iff_fits (v := (zero 3 : QuantumState ℝ 3))
    (t := .composite "outer" [.leaf (.rotation .y 1 ⟨2⟩),
      .composite "flip" [.leaf (.cx ⟨2⟩ ⟨0⟩)]]) |>.mpr (by decide)
  obtain ⟨b, hb⟩ := exists_applyTree_iff_fits (v := (zero 3 : QuantumState ℝ 3))
    (t := .leaf (.rotation .x 1 ⟨1⟩)) |>.mpr (by decide)
  obtain ⟨w, hw, hw'⟩ := applyTree_comm (by
    simp [GateTree.leaves_eq_flatten, GateTree.flatten, GateTree.flattenAll, Operation.rotation,
      single, cx])
    ha hb
  exact ⟨a, b, w, ha, hb, hw, hw'⟩

end QuantumState

end StatePrep
