import StatePrep.Proofs.Number.Real
import StatePrep.Proofs.Simplify.Accounting
import StatePrep.Proofs.Tree.Thinning

/-! # What the passes change in a tree

Each pass takes out leaves, and composites that have no leaf, and changes nothing else. So its
result is that of deleting a set of leaves and pruning the tree (`Composite.Thinned`), although the
passes drop composites at the moment they become childless and cancellation addresses leaves in a
list that it has changed before. For the zero rotations the set is known beforehand; for
cancellation it depends on the nesting which of several equal flips go
(`exists_thinned_by_passes`). -/

namespace StatePrep

open GateTree

variable {α : Type}

/-! ### Cancellation -/

namespace CxCancellation

/-- **A cancellation takes two flips out.** The right one is erased first, and the left one is still
found at its address. -/
theorem thins_cancelAt? {ts us : List (GateTree α)} {k : ℕ} (trim : AllTrim ts)
    (h : cancelAt? ts k = some us) : Thins (fun op => op.isCx = true) ts us := by
  unfold cancelAt? at h
  split at h
  · next left right hl hr =>
    split at h
    · next op next hop hnext =>
      split at h
      · next hc =>
        obtain rfl := Option.some.inj h
        obtain ⟨left, rfl⟩ := exists_eq_cons_of_outerPathAt? hl
        obtain ⟨right, rfl⟩ := exists_eq_cons_of_outerPathAt? hr
        obtain ⟨hcx, rfl⟩ := Operation.cancels_iff.mp hc
        have hright := thins_eraseLeaf (P := fun op => op.isCx = true) hcx trim hnext
        rw [← getLeaf?_eraseLeaf_of_lt (Nat.lt_add_one k) left right] at hop
        exact hright.trans (thins_eraseLeaf hcx hright.allTrim hop)
      · cases h
    · cases h
  · cases h

theorem thins_cancelFrom (k : ℕ) {ts : List (GateTree α)} (trim : AllTrim ts) :
    Thins (fun op => op.isCx = true) ts (cancelFrom k ts).1 := by
  fun_induction cancelFrom k ts with
  | case1 k ts hk us h later ih =>
    have hcancel := thins_cancelAt? trim h
    exact hcancel.trans (ih hcancel.allTrim)
  | case2 k ts hk h ih => exact ih trim
  | case3 k ts hk => exact Thins.refl trim

mutual

theorem thins_cancelIn : ∀ t : GateTree α,
    Thins (fun op => op.isCx = true) [t] (cancelIn t).1.toList
  | .leaf op => .keep op .nil
  | .composite name children => by
    have hinner := thins_cancelInEach children
    rw [cancelIn]
    exact (hinner.trans (thins_cancelFrom 0 hinner.allTrim)).composite name

theorem thins_cancelInEach : ∀ ts : List (GateTree α),
    Thins (fun op => op.isCx = true) ts (cancelInEach ts).1
  | [] => .nil
  | t :: ts => by
    rw [cancelInEach]
    exact (thins_cancelIn t).append (thins_cancelInEach ts)

end

theorem thins_cancelAll (ts : List (GateTree α)) :
    Thins (fun op => op.isCx = true) ts (cancelAll ts).1 := by
  have hinner := thins_cancelInEach ts
  exact hinner.trans (thins_cancelFrom 0 hinner.allTrim)

end CxCancellation

/-! ### Thinned composites -/

/-- The composite that a pass leaves of another one, and the number that it gives, if it takes out
the leaves with the given numbers. -/
structure Composite.Thinned (c : Composite α) (gone : Finset ℕ) (kept : Composite α × ℕ) :
    Prop where
  /-- The numbers are those of leaves. -/
  range : gone ⊆ Finset.range c.toTree.leaves.length
  /-- The leaves are deleted, and then the composites below the root that have no leaf. -/
  children : kept.1.children = pruneAll (deleteAll gone 0 c.children)
  name : kept.1.name = c.name
  count : kept.2 = gone.card
  /-- What survives is in order, with the names of the composites around it. -/
  survivors : kept.1.toTree.namedLeaves [] = survivors gone 0 (c.toTree.namedLeaves [])

theorem Composite.Thinned.leaves_eq {c : Composite α} {gone : Finset ℕ} {kept : Composite α × ℕ}
    (h : c.Thinned gone kept) :
    kept.1.toTree.leaves = StatePrep.survivors gone 0 c.toTree.leaves := by
  rw [leaves_eq_flatten, leaves_eq_flatten, ← map_snd_namedLeaves [], h.survivors, map_survivors,
    map_snd_namedLeaves]

/-- **A pass that only takes leaves out** thins the composite. -/
theorem exists_thinned {p : Pass α} {s : Settings α} {c : Composite α} {P : Operation α → Prop}
    (hname : (p.run s c).1.name = c.name) (h : Thins P c.children (p.run s c).1.children) :
    ∃ gone, c.Thinned gone (p.run s c) ∧
      ∀ i ∈ gone, ∃ op, c.toTree.leaves[i]? = some op ∧ P op := by
  obtain ⟨gone, hgone⟩ := h.exists_isThinning 0
  have hleaf : ∀ i ∈ gone, ∃ op, c.toTree.leaves[i]? = some op ∧ P op := by
    intro i hi
    obtain ⟨j, op, rfl, hj, hop⟩ := hgone.leaf i hi
    rw [leaves_eq_flatten, Nat.zero_add]
    exact ⟨op, hj, hop⟩
  have hrange : gone ⊆ Finset.range c.toTree.leaves.length := by
    intro i hi
    obtain ⟨op, hop, -⟩ := hleaf i hi
    exact Finset.mem_range.mpr (List.getElem?_eq_some_iff.mp hop).1
  have hnamed : (p.run s c).1.toTree.namedLeaves [] =
      survivors gone 0 (c.toTree.namedLeaves []) := by
    rw [Composite.toTree, Composite.toTree, namedLeaves, namedLeaves, hname, hgone.eq,
      namedLeavesAll_pruneAll, namedLeavesAll_deleteAll]
  refine ⟨gone, ⟨hrange, hgone.eq, hname, ?_, hnamed⟩, hleaf⟩
  -- what a pass leaves and what it takes out are all the leaves, and so are survivors and numbers
  have hrun : (p.run s c).1.toTree.leafCount + (p.run s c).2 = c.toTree.leafCount :=
    p.leafCount_run s c
  have hcount := length_survivors_add_card gone 0 (c.toTree.namedLeaves [])
  rw [← hnamed, length_namedLeaves, length_namedLeaves, Nat.zero_add] at hcount
  rw [leaves_eq_flatten, length_flatten, Finset.range_eq_Ico] at hrange
  rw [Finset.inter_eq_left.mpr hrange] at hcount
  omega

/-! ### Zero rotations -/

theorem angle?_eq_some_iff {g : Gate α} {theta : α} :
    g.angle? = some theta ↔ ∃ axis : Axis, g = axis.rotation theta := by
  constructor
  · intro h
    cases g with
    | rx _ => exact ⟨.x, congrArg Gate.rx (Option.some.inj h)⟩
    | ry _ => exact ⟨.y, congrArg Gate.ry (Option.some.inj h)⟩
    | rz _ => exact ⟨.z, congrArg Gate.rz (Option.some.inj h)⟩
    | x => cases h
    | u _ _ _ => cases h
    | cx => cases h
  · rintro ⟨axis, rfl⟩
    cases axis <;> rfl

variable [Scalar α]

namespace ZeroRotation

mutual

theorem thins_clear (s : Settings α) : ∀ t : GateTree α,
    Thins (fun op => isZeroRotation s op = true) [t] (clear s t).1.toList
  | .leaf op => by
    rw [clear]
    split
    · next hzero => exact .take hzero .nil
    · exact .keep op .nil
  | .composite name children => by
    rw [clear]
    exact (thins_clearAll s children).composite name

theorem thins_clearAll (s : Settings α) : ∀ ts : List (GateTree α),
    Thins (fun op => isZeroRotation s op = true) ts (clearAll s ts).1
  | [] => .nil
  | t :: ts => by
    rw [clearAll]
    exact (thins_clear s t).append (thins_clearAll s ts)

end

theorem isZeroRotation_eq_true_iff (hzero : ((0 : α) == 0) = true) {s : Settings α}
    {op : Operation α} : isZeroRotation s op = true ↔ ∃ (axis : Axis) (theta : α),
      op.gate = axis.rotation theta ∧ (Scalar.abs theta < s.tolerance ∨ (theta == 0) = true) := by
  have hflush : ∀ theta : α, (s.flush theta == 0) = true ↔
      Scalar.abs theta < s.tolerance ∨ (theta == 0) = true := by
    intro theta
    unfold Settings.flush
    split
    · next h => exact ⟨fun _ => .inl h, fun _ => hzero⟩
    · next h => exact ⟨.inr, fun h' => h'.resolve_left h⟩
  unfold isZeroRotation
  constructor
  · intro h
    split at h
    · next theta hangle =>
      obtain ⟨axis, hgate⟩ := angle?_eq_some_iff.mp hangle
      exact ⟨axis, theta, hgate, (hflush theta).mp h⟩
    · cases h
  · rintro ⟨axis, theta, hgate, htheta⟩
    rw [angle?_eq_some_iff.mpr ⟨axis, hgate⟩]
    exact (hflush theta).mpr htheta

end ZeroRotation

/-- **What the passes change.** The first pass takes out the rotations about an axis whose angle is
of a magnitude below the tolerance or equal to zero, and no other gate, so a rotation by an angle
that is not a number stays. The second pass takes out an
even number of flips. In both cases the result is that of deleting these leaves and then every
composite below the root that has no leaf, and the number given is the number of leaves deleted. So
the leaves that survive keep their operations, their order and the names of the composites around
them. -/
theorem exists_thinned_by_passes (s : Settings α) (c : Composite α) :
    (∃ gone, c.Thinned gone (zeroRotationPass.run s c) ∧
      (((0 : α) == 0) = true → ∀ i, i ∈ gone ↔ ∃ (op : Operation α) (axis : Axis) (theta : α),
        c.toTree.leaves[i]? = some op ∧ op.gate = axis.rotation theta ∧
          (Scalar.abs theta < s.tolerance ∨ (theta == 0) = true))) ∧
    ∃ gone, c.Thinned gone (cxCancellationPass.run s c) ∧ Even gone.card ∧
      ∀ i ∈ gone, ∃ op : Operation α, c.toTree.leaves[i]? = some op ∧ op.isCx = true := by
  constructor
  · obtain ⟨gone, hthinned, hgone⟩ := exists_thinned (p := zeroRotationPass) (s := s) rfl
      (ZeroRotation.thins_clearAll s c.children)
    refine ⟨gone, hthinned, fun hzero i => ⟨fun hi => ?_, ?_⟩⟩
    · obtain ⟨op, hop, hrotation⟩ := hgone i hi
      obtain ⟨axis, theta, hgate⟩ := (ZeroRotation.isZeroRotation_eq_true_iff hzero).mp hrotation
      exact ⟨op, axis, theta, hop, hgate⟩
    · rintro ⟨op, axis, theta, hop, hgate⟩
      -- a zero rotation that is not deleted would be left over
      by_contra hi
      have hleft : op ∈ (zeroRotationPass.run s c).1.toTree.leaves := by
        rw [hthinned.leaves_eq]
        exact mem_survivors_of_notMem hop (by rwa [Nat.zero_add])
      have hcleared : (zeroRotationPass.run s c).1.toTree.flatten = _ :=
        ZeroRotation.flattenAll_clearAll s c.children
      rw [leaves_eq_flatten, hcleared] at hleft
      have hkept := (List.mem_filter.mp hleft).2
      rw [(ZeroRotation.isZeroRotation_eq_true_iff hzero).mpr ⟨axis, theta, hgate⟩] at hkept
      cases hkept
  · obtain ⟨gone, hthinned, hgone⟩ := exists_thinned (p := cxCancellationPass) (s := s) rfl
      (CxCancellation.thins_cancelAll c.children)
    refine ⟨gone, hthinned, ?_, hgone⟩
    rw [← hthinned.count, even_iff_two_dvd]
    exact CxCancellation.two_dvd_cancelAll c.children

/-- The first pass takes out a small rotation between two flips, and the flips stay. -/
theorem exists_thinned_by_passes_nested :
    let flip : GateTree ℚ := .leaf (.cx ⟨0⟩ ⟨1⟩)
    let c : Composite ℚ := ⟨"root", [.composite "empty" [],
      .composite "pair" [flip, .leaf (.rotation .y (1 / 2) ⟨1⟩), flip]]⟩
    ((0 : ℚ) == 0) = true ∧
      ∃ gone, c.Thinned gone (zeroRotationPass.run ⟨1, true⟩ c) ∧ 0 ∉ gone ∧ 1 ∈ gone := by
  intro flip c
  have hzero : ((0 : ℚ) == 0) = true := beq_self_eq_true 0
  have hleaves : c.toTree.leaves = [.cx ⟨0⟩ ⟨1⟩, .rotation .y (1 / 2) ⟨1⟩, .cx ⟨0⟩ ⟨1⟩] :=
    leaves_eq_flatten c.toTree
  obtain ⟨⟨gone, hthinned, hgone⟩, -⟩ := exists_thinned_by_passes ⟨1, true⟩ c
  rw [hleaves] at hgone
  refine ⟨hzero, gone, hthinned, fun h => ?_, (hgone hzero 1).mpr ?_⟩
  · obtain ⟨op, axis, theta, hop, hgate, -⟩ := (hgone hzero 0).mp h
    obtain rfl : Operation.cx ⟨0⟩ ⟨1⟩ = op := Option.some.inj hop
    cases axis <;> cases hgate
  · refine ⟨_, .y, 1 / 2, rfl, rfl, .inl ?_⟩
    change |(1 / 2 : ℚ)| < 1
    norm_num

end StatePrep
