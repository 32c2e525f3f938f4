import Mathlib.Data.List.Nodup
import StatePrep.Circuit.Basic
import StatePrep.Proofs.State.Sequence

/-! # Operands

An operation is well formed over some qubits if it has as many operands as its gate needs, all
different and from these qubits (`Operation.WellFormed`). A circuit accepts exactly the operations
that are well formed over its own qubits (`checkOperation_eq_ok_iff`), and appends exactly the trees
whose leaves are (`append_eq_ok_iff`). -/

namespace StatePrep

variable {α : Type}

/-! ### Well-formed operations -/

namespace Operation

/-- The operation has the operands its gate needs, all of them different and from the list. -/
structure WellFormed (qubits : List Qubit) (op : Operation α) : Prop where
  arity : op.operands.length = op.gate.arity
  nodup : op.operands.Nodup
  mem : ∀ q ∈ op.operands, q ∈ qubits

variable {qubits more : List Qubit} {op : Operation α}

theorem WellFormed.mono (h : op.WellFormed qubits) (hsub : qubits ⊆ more) : op.WellFormed more :=
  ⟨h.arity, h.nodup, fun q hq => hsub (h.mem q hq)⟩

theorem wellFormed_single {g : Gate α} (hg : g.arity = 1) {q : Qubit} (h : q ∈ qubits) :
    (single g q).WellFormed qubits :=
  ⟨hg.symm, List.nodup_singleton q, by simpa [single] using h⟩

theorem wellFormed_rotation (axis : Axis) (theta : α) {q : Qubit} (h : q ∈ qubits) :
    (rotation axis theta q).WellFormed qubits :=
  wellFormed_single (by cases axis <;> rfl) h

theorem wellFormed_cx {control target : Qubit} (hne : control ≠ target) (hc : control ∈ qubits)
    (ht : target ∈ qubits) : (cx control target : Operation α).WellFormed qubits :=
  ⟨rfl, by simpa [cx] using hne, by simpa [cx] using ⟨hc, ht⟩⟩

theorem inverse_rotation [Neg α] (axis : Axis) (theta : α) (q : Qubit) :
    (rotation axis theta q).inverse = rotation axis (-theta) q := by
  cases axis <;> rfl

theorem WellFormed.fits (h : op.WellFormed qubits) {n : ℕ} (hn : ∀ q ∈ qubits, q.bit < n) :
    op.Fits n :=
  ⟨h.arity, fun q hq => hn q (h.mem q hq)⟩

end Operation

/-! ### The checks of a circuit -/

namespace Circuit

variable {c d : Circuit α} {gate : String} {op : Operation α} {t : GateTree α}

theorem checkQubitsFrom_eq_ok_iff (qs : List Qubit) : ∀ seen : List Qubit,
    c.checkQubitsFrom gate seen qs = .ok () ↔
      (∀ q ∈ qs, q ∈ c.qubits) ∧ qs.Nodup ∧ ∀ q ∈ qs, q ∉ seen := by
  induction qs with
  | nil => simp [checkQubitsFrom]
  | cons q qs ih =>
    intro seen
    rw [checkQubitsFrom, List.forall_mem_cons, List.nodup_cons, List.forall_mem_cons]
    by_cases hq : q ∈ c.qubits
    · rw [if_neg (not_not.mpr hq)]
      by_cases hseen : q ∈ seen
      · rw [if_pos hseen]
        exact ⟨fun h => (nomatch h), fun h => absurd hseen h.2.2.1⟩
      · rw [if_neg hseen, ih]
        simp only [List.mem_cons, not_or]
        constructor
        · rintro ⟨hmem, hnodup, hnew⟩
          exact ⟨⟨hq, hmem⟩, ⟨fun h => (hnew q h).1 rfl, hnodup⟩, hseen, fun p hp => (hnew p hp).2⟩
        · rintro ⟨⟨-, hmem⟩, ⟨hne, hnodup⟩, -, hnew⟩
          exact ⟨hmem, hnodup, fun p hp => ⟨fun h => hne (h ▸ hp), hnew p hp⟩⟩
    · rw [if_pos hq]
      exact ⟨fun h => (nomatch h), fun h => absurd h.1.1 hq⟩

theorem checkQubits_eq_ok_iff {qs : List Qubit} :
    c.checkQubits qs gate = .ok () ↔ (∀ q ∈ qs, q ∈ c.qubits) ∧ qs.Nodup := by
  rw [checkQubits, checkQubitsFrom_eq_ok_iff]
  simp

theorem checkOperation_eq_ok_iff : c.checkOperation op = .ok () ↔ op.WellFormed c.qubits := by
  unfold checkOperation
  split
  · next harity =>
    rw [checkQubits_eq_ok_iff]
    exact ⟨fun h => ⟨harity, h.2, h.1⟩, fun h => ⟨h.mem, h.nodup⟩⟩
  · next harity => exact ⟨fun h => (nomatch h), fun h => absurd h.arity harity⟩

theorem forM_eq_ok_iff {ε β : Type} {check : β → Except ε PUnit} {l : List β} :
    l.forM check = .ok () ↔ ∀ b ∈ l, check b = .ok () := by
  induction l with
  | nil => simp [pure, Except.pure]
  | cons b l ih =>
    rw [List.forM_eq_forM] at ih ⊢
    rw [List.forM_cons, bind_eq_ok_iff, List.forall_mem_cons, ← ih]
    exact ⟨fun ⟨_, hb, hl⟩ => ⟨hb, hl⟩, fun ⟨hb, hl⟩ => ⟨_, hb, hl⟩⟩

/-- **A tree is appended** if its leaves are well formed over the qubits of the circuit, and nothing
else changes then. -/
theorem append_eq_ok_iff : c.append t = .ok d ↔
    (∀ op ∈ t.flatten, op.WellFormed c.qubits) ∧ d = { c with trees := c.trees ++ [t] } := by
  have hchecks : t.leaves.forM c.checkOperation = .ok () ↔
      ∀ op ∈ t.flatten, op.WellFormed c.qubits := by
    rw [forM_eq_ok_iff, GateTree.leaves_eq_flatten]
    simp only [checkOperation_eq_ok_iff]
  rw [append, bind_eq_ok_iff, ← hchecks]
  constructor
  · rintro ⟨⟨⟩, hleaves, hd⟩
    exact ⟨hleaves, (Except.ok.inj hd).symm⟩
  · rintro ⟨hleaves, rfl⟩
    exact ⟨(), hleaves, rfl⟩

end Circuit

end StatePrep
