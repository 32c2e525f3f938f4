import StatePrep.Proofs.Number.Rounded
import StatePrep.Proofs.Simplify.Leaves

/-! # The accounts of a simplification

A pass settles if a second run right after the first takes nothing out (`Pass.Settles`). Repeating
such a pass comes to an end after one run if there is nothing to take out, and after two runs
otherwise (`Pass.Settles.exhaust_eq`). Both passes settle: after the first run the leaves are
filtered or freely reduced, and a second run would do the same once more.

Cancellation takes out leaves in pairs (`two_dvd_cancelAll`), so no leaf is lost when its count is
halved, and the numbers of a simplification add up (`simplify_accounting`). -/

namespace StatePrep

variable {α : Type}

/-! ### Repeating a pass -/

namespace Pass

/-- A second run of the pass takes nothing out. -/
def Settles (p : Pass α) : Prop := ∀ s c, (p.run s (p.run s c).1).2 = 0

/-- **Repeating a pass that settles** takes one run, or two where there is something to take out. -/
theorem Settles.exhaust_eq {p : Pass α} (h : p.Settles) (s : Settings α) (c : Composite α) :
    p.exhaust s c = if (p.run s c).2 = 0 then ⟨(p.run s c).1, 0, 1⟩
      else ⟨(p.run s (p.run s c).1).1, (p.run s c).2, 2⟩ := by
  have hsecond : p.exhaust s (p.run s c).1 = ⟨(p.run s (p.run s c).1).1, 0, 1⟩ := by
    rw [exhaust, dif_pos (h s c)]
  rw [exhaust]
  split
  · rfl
  · rw [hsecond]
    rfl

theorem Settles.passes_exhaust {p : Pass α} (h : p.Settles) (s : Settings α) (c : Composite α) :
    (p.exhaust s c).passes = if (p.exhaust s c).removed = 0 then 1 else 2 := by
  rw [h.exhaust_eq]
  by_cases hzero : (p.run s c).2 = 0
  · rw [if_pos hzero]
    rfl
  · rw [if_neg hzero]
    exact (if_neg hzero).symm

/-- **What is left and what was taken out** are all the leaves, however often a pass is repeated. -/
theorem leafCount_exhaust (p : Pass α) (s : Settings α) (c : Composite α) :
    (p.exhaust s c).result.leafCount + (p.exhaust s c).removed = c.leafCount := by
  fun_induction p.exhaust s c with
  | case1 c h =>
    have hrun := p.leafCount_run s c
    rwa [h] at hrun
  | case2 c h later ih =>
    have hrun := p.leafCount_run s c
    change later.result.leafCount + ((p.run s c).2 + later.removed) = c.leafCount
    change later.result.leafCount + later.removed = (p.run s c).1.leafCount at ih
    omega

end Pass

/-! ### The two passes settle -/

theorem exists_length_freeReduce (ops : List (Operation α)) :
    ∃ k, ops.length = (freeReduce ops).length + 2 * k := by
  refine freeReduce_induction (P := fun reduced => ∃ k, ops.length = reduced.length + 2 * k) ?_
    ⟨0, rfl⟩
  rintro before after op next - ⟨k, hk⟩
  refine ⟨k + 1, ?_⟩
  rw [hk, List.length_append, List.length_cons, List.length_cons, List.length_append]
  omega

namespace CxCancellation

theorem cancelAll_snd (ts : List (GateTree α)) : (freeReduce (GateTree.flattenAll ts)).length +
    (cancelAll ts).2 = (GateTree.flattenAll ts).length := by
  rw [← flattenAll_cancelAll, GateTree.length_flattenAll, GateTree.length_flattenAll]
  exact leafCountAll_cancelAll ts

theorem two_dvd_cancelAll (ts : List (GateTree α)) : 2 ∣ (cancelAll ts).2 := by
  obtain ⟨k, hk⟩ := exists_length_freeReduce (GateTree.flattenAll ts)
  have hcount := cancelAll_snd ts
  exact ⟨k, by omega⟩

end CxCancellation

theorem settles_cxCancellationPass : (cxCancellationPass : Pass α).Settles := by
  intro s c
  have hcount := CxCancellation.cancelAll_snd (CxCancellation.cancelAll c.children).1
  rw [CxCancellation.flattenAll_cancelAll, freeReduce_of_isReduced (isReduced_freeReduce _)]
    at hcount
  exact Nat.add_eq_left.mp hcount

theorem two_dvd_exhaust_cxCancellationPass (s : Settings α) (c : Composite α) :
    2 ∣ (cxCancellationPass.exhaust s c).removed := by
  rw [settles_cxCancellationPass.exhaust_eq]
  split
  · exact dvd_zero 2
  · exact CxCancellation.two_dvd_cancelAll c.children

theorem leafCount_eq_length_leaves (c : Composite α) : c.leafCount = c.toTree.leaves.length := by
  rw [GateTree.leaves_eq_flatten, GateTree.length_flatten]
  rfl

/-- A difference that is not negative does not wrap. -/
theorem toNat_sub_le {m k : ℕ} (h : k ≤ m) : (m.toUInt64 - k.toUInt64).toNat ≤ m - k := by
  have hsub : (m.toUInt64 - k.toUInt64).toNat = (2 ^ 64 - k % 2 ^ 64 + m % 2 ^ 64) % 2 ^ 64 :=
    UInt64.toNat_sub _ _
  omega

theorem value_savedFraction_mem_Icc {stats : SimplifyStats} (h : stats.after ≤ stats.before)
    (r : Rounding) : (stats.savedFraction : Rounded r).value ∈ Set.Icc (0 : ℝ) 1 := by
  unfold SimplifyStats.savedFraction
  split
  · exact ⟨le_rfl, zero_le_one⟩
  · next hne => exact value_div_mem_Icc r ((toNat_sub_le h).trans (Nat.sub_le _ _)) hne

variable [Scalar α]

theorem settles_zeroRotationPass : (zeroRotationPass : Pass α).Settles := by
  intro s c
  change (ZeroRotation.clearAll s (ZeroRotation.clearAll s c.children).1).2 = 0
  rw [ZeroRotation.clearAll_snd, ZeroRotation.flattenAll_clearAll, List.countP_eq_zero]
  intro op hop
  have hkept := (List.mem_filter.mp hop).2
  simpa using hkept

/-! ### Simplification -/

theorem two_mul_cxPairs_simplify (s : Settings α) (c : Composite α) :
    2 * (c.simplify s).2.cxPairs =
      (cxCancellationPass.exhaust s (zeroRotationPass.run s c).1).removed :=
  Nat.mul_div_cancel' (two_dvd_exhaust_cxCancellationPass s _)

theorem before_simplify (s : Settings α) (c : Composite α) : (c.simplify s).2.before =
    (c.simplify s).2.after + (c.simplify s).2.rotations + 2 * (c.simplify s).2.cxPairs := by
  have hcleared : (zeroRotationPass.run s c).1.leafCount + (c.simplify s).2.rotations =
      (c.simplify s).2.before := zeroRotationPass.leafCount_run s c
  have hcancelled : (c.simplify s).2.after +
      (cxCancellationPass.exhaust s (zeroRotationPass.run s c).1).removed =
        (zeroRotationPass.run s c).1.leafCount := cxCancellationPass.leafCount_exhaust s _
  rw [two_mul_cxPairs_simplify]
  omega

theorem passes_simplify (s : Settings α) (c : Composite α) :
    (c.simplify s).2.passes = if (c.simplify s).2.cxPairs = 0 then 1 else 2 := by
  have hpasses : (c.simplify s).2.passes =
      if (cxCancellationPass.exhaust s (zeroRotationPass.run s c).1).removed = 0 then 1 else 2 :=
    settles_cxCancellationPass.passes_exhaust s _
  rw [hpasses, ← two_mul_cxPairs_simplify]
  simp

theorem after_le_before_simplify (s : Settings α) (c : Composite α) :
    (c.simplify s).2.after ≤ (c.simplify s).2.before := by
  rw [before_simplify]
  omega

/-- **The accounts of a simplification.** The gates before are those left, the rotations taken out
and two for each pair of flips, so the fraction saved is between zero and one however it is rounded.
The cancellation is run once where there is nothing to cancel and twice otherwise. The same holds of
each of the two passes: a second run of it takes nothing out, so repeating it comes to an end after
one run or two, and the total is the number of leaves lost. -/
theorem simplify_accounting (s : Settings α) (c : Composite α) :
    let stats := (c.simplify s).2
    (stats.before = c.toTree.leaves.length ∧
      stats.after = (c.simplify s).1.toTree.leaves.length ∧
      stats.before = stats.after + stats.rotations + 2 * stats.cxPairs ∧
      stats.after ≤ stats.before ∧
      (∀ r : Rounding, (stats.savedFraction : Rounded r).value ∈ Set.Icc (0 : ℝ) 1) ∧
      stats.passes = if stats.cxPairs = 0 then 1 else 2) ∧
    ∀ p : Pass α, p = zeroRotationPass ∨ p = cxCancellationPass →
      (p.run s (p.run s c).1).2 = 0 ∧
      (p.exhaust s c).passes = (if (p.exhaust s c).removed = 0 then 1 else 2) ∧
      (p.exhaust s c).result.toTree.leaves.length + (p.exhaust s c).removed =
        c.toTree.leaves.length := by
  refine ⟨⟨leafCount_eq_length_leaves c, leafCount_eq_length_leaves _, before_simplify s c,
    after_le_before_simplify s c, value_savedFraction_mem_Icc (after_le_before_simplify s c),
    passes_simplify s c⟩,
    fun p hp => ?_⟩
  have hsettles : p.Settles := by
    rcases hp with rfl | rfl
    · exact settles_zeroRotationPass
    · exact settles_cxCancellationPass
  refine ⟨hsettles s c, hsettles.passes_exhaust s c, ?_⟩
  rw [← leafCount_eq_length_leaves, ← leafCount_eq_length_leaves]
  exact p.leafCount_exhaust s c

end StatePrep
