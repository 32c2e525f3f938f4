import StatePrep.Proofs.State.Image
import StatePrep.Proofs.Tree.Walk

/-! # Where a sequence stops

Operations are applied in order up to the first one that does not fit, whose error is the error of
the sequence; the state is then the one that the operations before it lead to (`InOrder`). For a
tree these operations are its leaves from left to right (`depth_first_walk`): the walk that finds
them comes to its end and meets all of them, whatever composites without leaves lie between. -/

namespace StatePrep

variable {α : Type}

namespace QuantumState

open Operation

variable [Analytic α] {n : ℕ}

/-- The state and the error that operations applied in order lead to. Either all of them fit and
are applied, or the first one that does not fit is refused and those before it are applied. -/
inductive InOrder (ops : List (Operation α)) (v : QuantumState α n) :
    QuantumState α n × Option CircuitError → Prop
  | toEnd {w : QuantumState α n} (fits : ∀ op ∈ ops, op.Fits n)
    (applied : ops.foldlM (fun u op => u.apply op) v = .ok w) : InOrder ops v (w, none)
  | stopped {before behind : List (Operation α)} {op : Operation α} {e : CircuitError}
    {w : QuantumState α n} (split : ops = before ++ op :: behind)
    (fits : ∀ p ∈ before, p.Fits n) (refused : op.Refused n e)
    (applied : before.foldlM (fun u op => u.apply op) v = .ok w) : InOrder ops v (w, some e)

theorem InOrder.cons {op : Operation α} {ops : List (Operation α)} {u v : QuantumState α n}
    {result : QuantumState α n × Option CircuitError} (hu : v.apply op = .ok u)
    (h : InOrder ops u result) : InOrder (op :: ops) v result := by
  have hop : op.Fits n := exists_apply_iff_fits.mp ⟨u, hu⟩
  have hfold : ∀ qs : List (Operation α), (op :: qs).foldlM (fun u op => u.apply op) v =
      qs.foldlM (fun u op => u.apply op) u := by
    intro qs
    rw [List.foldlM_cons, hu]
    rfl
  cases h with
  | toEnd fits applied =>
    exact .toEnd (List.forall_mem_cons.mpr ⟨hop, fits⟩) ((hfold ops).trans applied)
  | @stopped before behind p e w split fits refused applied =>
    exact .stopped (congrArg (op :: ·) split) (List.forall_mem_cons.mpr ⟨hop, fits⟩) refused
      ((hfold before).trans applied)

/-- **Operations are applied in order**, up to the first one that does not fit. -/
theorem inOrder_applyAll (ops : List (Operation α)) (v : QuantumState α n) :
    InOrder ops v (applyAll ops v) := by
  induction ops generalizing v with
  | nil => exact .toEnd (by simp) rfl
  | cons op ops ih =>
    rw [applyAll]
    cases h : v.apply op with
    | ok u => exact (ih u).cons h
    | error e =>
      exact .stopped (List.nil_append _).symm (by simp) (apply_eq_error_iff.mp h) rfl

end QuantumState

/-- **A walk is the depth-first flattening.** It is at its end, with all the leaves in order, when
its turns have been taken and not before. Each call for a leaf comes to its end: some turns meet no
leaf, and then one meets the leaf given, or nothing is pending. Calls until there is nothing more
give the flattened tree, as many leaves as the tree counts. So a tree is applied by applying its
flattened leaves in order, and it stops with the error of the first one that does not fit. -/
theorem GateTree.depth_first_walk [Analytic α] (t : GateTree α) :
    (∀ k, (Cursor.start t).walk k = (t.flatten, ⟨[]⟩) ↔ t.turnCount + 1 ≤ k) ∧
      (∀ c : Cursor α, ∃ k, match c.next? with
        | none => c.walk k = ([], ⟨[]⟩)
        | some (op, d) => (c.walk k).1 = [] ∧ c.walk (k + 1) = ([op], d)) ∧
      (∀ ops, (∃ d, (Cursor.start t).Yields ops d ∧ d.next? = none) ↔ ops = t.flatten) ∧
      t.leaves = t.flatten ∧ t.leaves.length = t.leafCount ∧
      ∀ (n : ℕ) (v : QuantumState α n), QuantumState.InOrder t.flatten v (v.applyTree t) := by
  refine ⟨fun k => ?_, Cursor.exists_walk_next?, fun ops => ?_, leaves_eq_flatten t, ?_,
    fun n v => ?_⟩
  · rw [← Cursor.ahead_start, Cursor.walk_eq_end_iff, Cursor.turnsLeft_start]
  · rw [Cursor.exists_yields_iff, Cursor.ahead_start]
  · rw [leaves_eq_flatten, length_flatten]
  · rw [QuantumState.applyTree_eq_applyAll]
    exact QuantumState.inOrder_applyAll t.flatten v

end StatePrep
