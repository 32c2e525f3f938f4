import Mathlib.Data.List.Basic
import StatePrep.Proofs.State.Scan
import StatePrep.Proofs.Tree.Leaves

/-! # Sequences that are applied to their end

An operation that is not refused is one of the two scans of the simulator (`apply_eq_ok_iff`). That
it is not refused depends on its operands and the number of qubits alone: it must fit, with as many
operands as its gate takes and none outside the state (`exists_apply_iff_fits`). So the operations
of a sequence decide whether it is applied to its end, whatever the amplitudes are
(`exists_applyTree_iff_fits`).

No law of arithmetic is needed. -/

namespace StatePrep

/-! ### Outcomes -/

theorem bind_eq_ok_iff {ε β γ : Type} {x : Except ε β} {f : β → Except ε γ} {c : γ} :
    x >>= f = .ok c ↔ ∃ b, x = .ok b ∧ f b = .ok c := by
  cases x with
  | error e =>
    constructor
    · exact fun h => nomatch h
    · rintro ⟨b, h, -⟩
      cases h
  | ok b =>
    constructor
    · exact fun h => ⟨b, rfl, h⟩
    · rintro ⟨b', h, h'⟩
      cases h
      exact h'

theorem mapError_eq_ok_iff {ε ε' β : Type} {f : ε → ε'} {x : Except ε β} {b : β} :
    x.mapError f = .ok b ↔ x = .ok b := by
  cases x <;> simp [Except.mapError]

theorem map_eq_ok_iff {ε β γ : Type} {f : β → γ} {x : Except ε β} {c : γ} :
    x.map f = .ok c ↔ ∃ b, x = .ok b ∧ f b = c := by
  cases x <;> simp [Except.map]

variable {α : Type} {n : ℕ}

/-! ### Operations that fit -/

namespace Operation

/-- The operation can be applied to `n` qubits. -/
def Fits {α : Type} (n : ℕ) (op : Operation α) : Prop :=
  op.operands.length = op.gate.arity ∧ ∀ q ∈ op.operands, q.bit < n

instance (n : ℕ) (op : Operation α) : Decidable (op.Fits n) := inferInstanceAs (Decidable (_ ∧ _))

theorem arity_inverse [Neg α] (g : Gate α) : g.inverse.arity = g.arity := by
  cases g <;> rfl

theorem fits_inverse_iff [Neg α] {op : Operation α} : op.inverse.Fits n ↔ op.Fits n := by
  unfold Fits inverse
  rw [arity_inverse]

theorem fits_flatten_inverse_iff [Neg α] {t : GateTree α} :
    (∀ op ∈ t.inverse.flatten, op.Fits n) ↔ ∀ op ∈ t.flatten, op.Fits n := by
  rw [GateTree.flatten_inverse]
  simp only [List.mem_reverse, List.forall_mem_map, fits_inverse_iff]

theorem fits_rotation (axis : Axis) (theta : α) {q : Qubit} (h : q.bit < n) :
    (rotation axis theta q).Fits n := by
  refine ⟨by cases axis <;> rfl, ?_⟩
  simpa [rotation, single] using h

theorem fits_cx {control target : Qubit} (hc : control.bit < n) (ht : target.bit < n) :
    (cx control target : Operation α).Fits n := by
  refine ⟨rfl, ?_⟩
  simpa [cx] using ⟨hc, ht⟩

variable [Analytic α]

theorem matrix?_eq_none_iff {g : Gate α} : g.matrix? = none ↔ g = .cx := by
  cases g <;> simp [Gate.matrix?]

theorem arity_of_matrix? {g : Gate α} {m : Matrix2 α} (h : g.matrix? = some m) : g.arity = 1 := by
  cases g <;> first | rfl | simp [Gate.matrix?] at h

theorem cases_of_length {op : Operation α} (h : op.operands.length = op.gate.arity) :
    (∃ g m q, op = single g q ∧ g.matrix? = some m) ∨ ∃ c t, op = cx c t := by
  obtain ⟨g, qs⟩ := op
  dsimp only at h
  cases hm : g.matrix? with
  | none =>
    obtain rfl := matrix?_eq_none_iff.mp hm
    obtain ⟨c, t, rfl⟩ := List.length_eq_two.mp h
    exact .inr ⟨c, t, rfl⟩
  | some m =>
    obtain ⟨q, rfl⟩ := List.length_eq_one_iff.mp (h.trans (arity_of_matrix? hm))
    exact .inl ⟨g, m, q, rfl, hm⟩

theorem Fits.cases {op : Operation α} (h : op.Fits n) :
    (∃ g m q, op = single g q ∧ g.matrix? = some m ∧ q.bit < n) ∨
      ∃ c t, op = cx c t ∧ c.bit < n ∧ t.bit < n := by
  obtain ⟨hlen, hlt⟩ := h
  rcases cases_of_length hlen with ⟨g, m, q, rfl, hm⟩ | ⟨c, t, rfl⟩
  · exact .inl ⟨g, m, q, rfl, hm, hlt q (by simp [single])⟩
  · exact .inr ⟨c, t, rfl, hlt c (by simp [cx]), hlt t (by simp [cx])⟩

end Operation

namespace QuantumState

open Operation

variable [Analytic α]

/-! ### One operation -/

theorem locate_eq_ok_iff {gate : String} {q : Qubit} {t : Fin n} :
    locate n gate q = .ok t ↔ q.bit = t := by
  unfold locate
  split
  · next h => simp [Fin.ext_iff]
  · next h =>
    constructor
    · exact fun h' => nomatch h'
    · exact fun h' => absurd (h' ▸ t.isLt) h

/-- **What applying an operation does**: it is one of the two scans, on qubits of the state. -/
theorem apply_eq_ok_iff {op : Operation α} {v w : QuantumState α n} : v.apply op = .ok w ↔
    (∃ g m q, ∃ t : Fin n, op = single g q ∧ g.matrix? = some m ∧ q.bit = t ∧
      w = v.applyMatrix m t) ∨
    ∃ q r, ∃ c t : Fin n, op = cx q r ∧ q.bit = c ∧ r.bit = t ∧ w = v.applyCx c t := by
  unfold apply
  constructor
  · intro h
    split at h
    · next m q hm hqs =>
      obtain ⟨t, hq, h⟩ := bind_eq_ok_iff.mp h
      refine .inl ⟨op.gate, m, q, t, ?_, hm, locate_eq_ok_iff.mp hq, (Except.ok.inj h).symm⟩
      rw [single, ← hqs]
    · next q r hm hqs =>
      obtain ⟨c, hq, h⟩ := bind_eq_ok_iff.mp h
      obtain ⟨t, hr, h⟩ := bind_eq_ok_iff.mp h
      refine .inr ⟨q, r, c, t, ?_, locate_eq_ok_iff.mp hq, locate_eq_ok_iff.mp hr,
        (Except.ok.inj h).symm⟩
      rw [cx, ← hqs, ← matrix?_eq_none_iff.mp hm]
    · cases h
  · rintro (⟨g, m, q, t, rfl, hm, hq, rfl⟩ | ⟨q, r, c, t, rfl, hq, hr, rfl⟩)
    · simp [single, hm, locate_eq_ok_iff.mpr hq, bind, Except.bind, pure, Except.pure]
    · simp [cx, Gate.matrix?, locate_eq_ok_iff.mpr hq, locate_eq_ok_iff.mpr hr, bind, Except.bind,
        pure, Except.pure]

/-- **An operation is applied if it fits**, and only then. -/
theorem exists_apply_iff_fits {op : Operation α} {v : QuantumState α n} :
    (∃ w, v.apply op = .ok w) ↔ op.Fits n := by
  constructor
  · rintro ⟨w, h⟩
    rcases apply_eq_ok_iff.mp h with ⟨g, m, q, t, rfl, hm, hq, -⟩ | ⟨q, r, c, t, rfl, hq, hr, -⟩
    · refine ⟨(arity_of_matrix? hm).symm, ?_⟩
      simpa [single] using hq ▸ t.isLt
    · exact fits_cx (hq ▸ c.isLt) (hr ▸ t.isLt)
  · intro h
    rcases h.cases with ⟨g, m, q, rfl, hm, hlt⟩ | ⟨q, r, rfl, hq, hr⟩
    · exact ⟨_, apply_eq_ok_iff.mpr (.inl ⟨g, m, q, ⟨q.bit, hlt⟩, rfl, hm, rfl, rfl⟩)⟩
    · exact ⟨_, apply_eq_ok_iff.mpr (.inr ⟨q, r, ⟨q.bit, hq⟩, ⟨r.bit, hr⟩, rfl, rfl, rfl, rfl⟩)⟩

theorem exists_apply_eq_error {op : Operation α} (h : ¬ op.Fits n) (v : QuantumState α n) :
    ∃ e, v.apply op = .error e := by
  cases hv : v.apply op with
  | ok w => exact absurd (exists_apply_iff_fits.mp ⟨w, hv⟩) h
  | error e => exact ⟨e, rfl⟩

/-! ### Sequences -/

theorem applyAll_cons_iff {op : Operation α} {ops : List (Operation α)} {v w : QuantumState α n} :
    applyAll (op :: ops) v = (w, none) ↔
      ∃ u, v.apply op = .ok u ∧ applyAll ops u = (w, none) := by
  rw [applyAll]
  cases v.apply op with
  | error e => simp
  | ok u => simp

theorem applyAll_append_iff {ops more : List (Operation α)} {v w : QuantumState α n} :
    applyAll (ops ++ more) v = (w, none) ↔
      ∃ u, applyAll ops v = (u, none) ∧ applyAll more u = (w, none) := by
  induction ops generalizing v with
  | nil => simp [applyAll]
  | cons op ops ih =>
    rw [List.cons_append, applyAll_cons_iff]
    constructor
    · rintro ⟨u, hop, hrest⟩
      obtain ⟨u', hops, hmore⟩ := ih.mp hrest
      exact ⟨u', applyAll_cons_iff.mpr ⟨u, hop, hops⟩, hmore⟩
    · rintro ⟨u', hops, hmore⟩
      obtain ⟨u, hop, hrest⟩ := applyAll_cons_iff.mp hops
      exact ⟨u, hop, ih.mpr ⟨u', hrest, hmore⟩⟩

theorem exists_applyAll_iff_fits {ops : List (Operation α)} {v : QuantumState α n} :
    (∃ w, applyAll ops v = (w, none)) ↔ ∀ op ∈ ops, op.Fits n := by
  induction ops generalizing v with
  | nil => simp [applyAll]
  | cons op ops ih =>
    rw [List.forall_mem_cons, ← exists_apply_iff_fits (v := v)]
    constructor
    · rintro ⟨w, h⟩
      obtain ⟨u, hop, hops⟩ := applyAll_cons_iff.mp h
      exact ⟨⟨u, hop⟩, ih.mp ⟨w, hops⟩⟩
    · rintro ⟨⟨u, hop⟩, hops⟩
      obtain ⟨w, hw⟩ := ih.mpr hops
      exact ⟨w, applyAll_cons_iff.mpr ⟨u, hop, hw⟩⟩

theorem applyTree_eq_applyAll (t : GateTree α) (v : QuantumState α n) :
    v.applyTree t = applyAll t.flatten v := by
  rw [applyTree, GateTree.leaves_eq_flatten]

theorem exists_applyTree_iff_fits {t : GateTree α} {v : QuantumState α n} :
    (∃ w, v.applyTree t = (w, none)) ↔ ∀ op ∈ t.flatten, op.Fits n := by
  simp only [applyTree_eq_applyAll]
  exact exists_applyAll_iff_fits

end QuantumState

end StatePrep
