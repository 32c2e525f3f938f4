import StatePrep.Number.Binary64
import StatePrep.Proofs.Simplify.Leaves
import StatePrep.Proofs.State.Sequence

/-! # Cancelling flips is exact

A controlled flip only exchanges amplitudes, so two equal ones in a row leave every amplitude what
it was (`apply_of_cancels`), and taking them out of a sequence changes nothing that the simulator
computes (`applyAll_freeReduce`). No amplitude is added or multiplied on the way: the results are
identical over every type of scalars, machine floats with all their rounding included. -/

namespace StatePrep

open Operation QuantumState

variable {α : Type} [Analytic α] {n : ℕ}

/-- **The second of two cancelling operations undoes the first.** -/
theorem apply_of_cancels {op next : Operation α} (hc : op.cancels next = true)
    {v w : QuantumState α n} (h : v.apply op = .ok w) : w.apply next = .ok v := by
  obtain ⟨hcx, rfl⟩ := cancels_iff.mp hc
  rcases apply_eq_ok_iff.mp h with ⟨g, m, q, t, rfl, hm, -, -⟩ | ⟨q, r, c, t, rfl, hq, hr, rfl⟩
  · obtain rfl : g = .cx := Gate.isCx_iff.mp hcx
    cases hm
  · exact apply_eq_ok_iff.mpr (.inr ⟨q, r, c, t, rfl, hq, hr, (applyCx_applyCx c t v).symm⟩)

theorem applyAll_append_cancel {before after : List (Operation α)} {op next : Operation α}
    (hc : op.cancels next = true) {v w : QuantumState α n}
    (h : applyAll (before ++ op :: next :: after) v = (w, none)) :
    applyAll (before ++ after) v = (w, none) := by
  obtain ⟨u, hbefore, hrest⟩ := applyAll_append_iff.mp h
  obtain ⟨u', hop, hrest⟩ := applyAll_cons_iff.mp hrest
  obtain ⟨u'', hnext, hafter⟩ := applyAll_cons_iff.mp hrest
  obtain rfl : u = u'' := Except.ok.inj ((apply_of_cancels hc hop).symm.trans hnext)
  exact applyAll_append_iff.mpr ⟨u, hbefore, hafter⟩

/-- **Free reduction leads to the same state.** -/
theorem applyAll_freeReduce {ops : List (Operation α)} {v w : QuantumState α n}
    (h : applyAll ops v = (w, none)) : applyAll (freeReduce ops) v = (w, none) :=
  freeReduce_induction (P := fun reduced => applyAll reduced v = (w, none))
    (fun _ _ _ _ hc h => applyAll_append_cancel hc h) h

/-- **Cancelling flips leaves the result as it is.** If a composite is applied to its end, so is
what one run of the pass leaves of it, and what repeating the pass leaves of it, and both lead to
the identical state. -/
theorem applyTree_cxCancellationPass {c : Composite α} {v w : QuantumState α n}
    (h : v.applyTree c.toTree = (w, none)) (s : Settings α) :
    v.applyTree (cxCancellationPass.run s c).1.toTree = (w, none) ∧
      v.applyTree (cxCancellationPass.exhaust s c).result.toTree = (w, none) := by
  rw [applyTree_eq_applyAll] at h
  have hreduced := applyAll_freeReduce h
  rw [applyTree_eq_applyAll, applyTree_eq_applyAll]
  constructor
  · have hleaves : (cxCancellationPass.run s c).1.toTree.flatten = freeReduce c.toTree.flatten :=
      CxCancellation.flattenAll_cancelAll c.children
    rw [hleaves]
    exact hreduced
  · have hleaves : (cxCancellationPass.exhaust s c).result.toTree.flatten =
        freeReduce c.toTree.flatten := flattenAll_exhaust_cxCancellationPass s c
    rw [hleaves]
    exact hreduced

/-- Flips of two pairs that meet across composites, one with its control as its target, on machine
floats. -/
theorem applyTree_cxCancellationPass_nested :
    let pair : List (GateTree Float) := [.leaf (.cx ⟨0⟩ ⟨1⟩), .leaf (.cx ⟨2⟩ ⟨2⟩)]
    let c : Composite Float := ⟨"root", [.composite "left" pair, .composite "none" [],
      .composite "right" (.leaf (.cx ⟨2⟩ ⟨2⟩) :: .leaf (.cx ⟨0⟩ ⟨1⟩) :: pair)]⟩
    ∃ w, (QuantumState.zero 3).applyTree c.toTree = (w, none) ∧
      (QuantumState.zero 3).applyTree (cxCancellationPass.run .standard c).1.toTree = (w, none) ∧
      (QuantumState.zero 3).applyTree
        (cxCancellationPass.exhaust .standard c).result.toTree = (w, none) := by
  intro pair c
  obtain ⟨w, hw⟩ := exists_applyTree_iff_fits (t := c.toTree) (v := QuantumState.zero 3).mpr
    (by decide)
  exact ⟨w, hw, applyTree_cxCancellationPass hw .standard⟩

end StatePrep
