import StatePrep.Proofs.Simplify.Turned
import StatePrep.Proofs.Tree.MapLeaves

/-! # Simplifying a tree whose leaves are changed

Simplification looks at operations only to tell whether one is a zero rotation and whether two of
them cancel. A change of operations that keeps both (`Unseen`) may be made before simplification or
after it: not only are the same leaves taken out, the composites around those left and the numbers
reported are the same too (`simplify_mapLeaves`). -/

namespace StatePrep

open GateTree

variable {α : Type}

/-- The composite with every leaf changed. -/
def Composite.mapLeaves (f : Operation α → Operation α) (c : Composite α) : Composite α :=
  { c with children := mapLeavesAll f c.children }

theorem Composite.toTree_mapLeaves (f : Operation α → Operation α) (c : Composite α) :
    (c.mapLeaves f).toTree = c.toTree.mapLeaves f := rfl

theorem Composite.leafCount_mapLeaves (f : Operation α → Operation α) (c : Composite α) :
    (c.mapLeaves f).leafCount = c.leafCount :=
  leafCountAll_mapLeavesAll f c.children

/-! ### Steps of the scan -/

namespace CxCancellation

theorem cancelFrom_of_eq_some {k : ℕ} {ts us : List (GateTree α)} (hk : k + 1 < ts.length)
    (h : cancelAt? ts k = some us) :
    cancelFrom k ts = ((cancelFrom (k - 1) us).1, (cancelFrom (k - 1) us).2 + 2) := by
  rw [cancelFrom, dif_pos hk]
  split
  · next us' h' =>
    obtain rfl : us' = us := Option.some.inj (h'.symm.trans h)
    rfl
  · next h' => exact absurd (h'.symm.trans h) (Option.some_ne_none us).symm

theorem cancelFrom_of_eq_none {k : ℕ} {ts : List (GateTree α)} (hk : k + 1 < ts.length)
    (h : cancelAt? ts k = none) : cancelFrom k ts = cancelFrom (k + 1) ts := by
  rw [cancelFrom, dif_pos hk]
  split
  · next us h' => exact absurd (h'.symm.trans h) (Option.some_ne_none us)
  · rfl

end CxCancellation

variable [Scalar α] {s : Settings α} {f : Operation α → Operation α}

/-! ### Zero rotations -/

namespace ZeroRotation

mutual

theorem clear_mapLeaves (hf : Unseen s f) : ∀ t : GateTree α,
    clear s (t.mapLeaves f) = ((clear s t).1.map (GateTree.mapLeaves f), (clear s t).2)
  | .leaf op => by
    rw [mapLeaves, clear, clear, hf.isZeroRotation]
    split <;> rfl
  | .composite name children => by
    rw [mapLeaves, clear, clear, clearAll_mapLeavesAll hf children]
    dsimp only
    rw [isEmpty_mapLeavesAll]
    split <;> rfl

/-- **The zero rotations** of the changed trees are those of the trees. -/
theorem clearAll_mapLeavesAll (hf : Unseen s f) : ∀ ts : List (GateTree α),
    clearAll s (mapLeavesAll f ts) = (mapLeavesAll f (clearAll s ts).1, (clearAll s ts).2)
  | [] => rfl
  | t :: ts => by
    rw [mapLeavesAll, clearAll, clearAll, clear_mapLeaves hf t, clearAll_mapLeavesAll hf ts,
      mapLeavesAll_append]
    cases (clear s t).1 <;> rfl

end

end ZeroRotation

/-! ### Controlled flips -/

namespace CxCancellation

theorem cancelAt?_mapLeavesAll (hf : Unseen s f) (ts : List (GateTree α)) (k : ℕ) :
    cancelAt? (mapLeavesAll f ts) k = (cancelAt? ts k).map (mapLeavesAll f) := by
  unfold cancelAt?
  rw [outerPathAt?_mapLeavesAll, outerPathAt?_mapLeavesAll]
  rcases outerPathAt? .last ts k with _ | left
  · rfl
  rcases outerPathAt? .first ts (k + 1) with _ | right
  · rfl
  dsimp only
  rw [getLeaf?_mapLeavesAll, getLeaf?_mapLeavesAll]
  rcases getLeaf? ts left with _ | op
  · rfl
  rcases getLeaf? ts right with _ | next
  · rfl
  dsimp only [Option.map]
  rw [hf.cancels, eraseLeaf_mapLeavesAll, eraseLeaf_mapLeavesAll]
  split <;> rfl

theorem cancelFrom_mapLeavesAll (hf : Unseen s f) (k : ℕ) (ts : List (GateTree α)) :
    cancelFrom k (mapLeavesAll f ts) =
      (mapLeavesAll f (cancelFrom k ts).1, (cancelFrom k ts).2) := by
  have hat := cancelAt?_mapLeavesAll hf
  -- by induction on the scan of the unchanged trees, which meets the same pairs
  fun_induction cancelFrom k ts with
  | case1 k ts hk us h later ih =>
    rw [← length_mapLeavesAll f ts] at hk
    have hus : cancelAt? (mapLeavesAll f ts) k = some (mapLeavesAll f us) := by rw [hat, h]; rfl
    rw [cancelFrom_of_eq_some hk hus, ih]
  | case2 k ts hk h ih =>
    rw [← length_mapLeavesAll f ts] at hk
    have hnone : cancelAt? (mapLeavesAll f ts) k = none := by rw [hat, h]; rfl
    rw [cancelFrom_of_eq_none hk hnone, ih]
  | case3 k ts hk =>
    rw [cancelFrom, dif_neg]
    rwa [length_mapLeavesAll]

mutual

theorem cancelIn_mapLeaves (hf : Unseen s f) : ∀ t : GateTree α,
    cancelIn (t.mapLeaves f) = ((cancelIn t).1.map (GateTree.mapLeaves f), (cancelIn t).2)
  | .leaf op => rfl
  | .composite name children => by
    rw [mapLeaves, cancelIn, cancelIn, cancelInEach_mapLeavesAll hf children]
    dsimp only
    rw [cancelFrom_mapLeavesAll hf, isEmpty_mapLeavesAll]
    split <;> rfl

theorem cancelInEach_mapLeavesAll (hf : Unseen s f) : ∀ ts : List (GateTree α),
    cancelInEach (mapLeavesAll f ts) =
      (mapLeavesAll f (cancelInEach ts).1, (cancelInEach ts).2)
  | [] => rfl
  | t :: ts => by
    rw [mapLeavesAll, cancelInEach, cancelInEach, cancelIn_mapLeaves hf t,
      cancelInEach_mapLeavesAll hf ts, mapLeavesAll_append]
    cases (cancelIn t).1 <;> rfl

end

/-- **The flips that cancel** in the changed trees are those that cancel in the trees. -/
theorem cancelAll_mapLeavesAll (hf : Unseen s f) (ts : List (GateTree α)) :
    cancelAll (mapLeavesAll f ts) = (mapLeavesAll f (cancelAll ts).1, (cancelAll ts).2) := by
  unfold cancelAll
  rw [cancelInEach_mapLeavesAll hf]
  dsimp only
  rw [cancelFrom_mapLeavesAll hf]

end CxCancellation

/-! ### Simplification -/

theorem run_zeroRotationPass_mapLeaves (hf : Unseen s f) (c : Composite α) :
    zeroRotationPass.run s (c.mapLeaves f) =
      ((zeroRotationPass.run s c).1.mapLeaves f, (zeroRotationPass.run s c).2) := by
  have hkept := ZeroRotation.clearAll_mapLeavesAll hf c.children
  dsimp only [zeroRotationPass, Composite.mapLeaves]
  rw [hkept]

theorem run_cxCancellationPass_mapLeaves (hf : Unseen s f) (c : Composite α) :
    cxCancellationPass.run s (c.mapLeaves f) =
      ((cxCancellationPass.run s c).1.mapLeaves f, (cxCancellationPass.run s c).2) := by
  have hkept := CxCancellation.cancelAll_mapLeavesAll hf c.children
  dsimp only [cxCancellationPass, Composite.mapLeaves]
  rw [hkept]

theorem exhaust_cxCancellationPass_mapLeaves (hf : Unseen s f) (c : Composite α) :
    cxCancellationPass.exhaust s (c.mapLeaves f) =
      { cxCancellationPass.exhaust s c with
        result := (cxCancellationPass.exhaust s c).result.mapLeaves f } := by
  rw [settles_cxCancellationPass.exhaust_eq, settles_cxCancellationPass.exhaust_eq,
    run_cxCancellationPass_mapLeaves hf]
  dsimp only
  rw [run_cxCancellationPass_mapLeaves hf]
  split <;> rfl

/-- **An unseen change may be made before simplification or after it**: the trees left are the same
and so are the numbers reported. -/
theorem simplify_mapLeaves (hf : Unseen s f) (c : Composite α) :
    (c.mapLeaves f).simplify s = ((c.simplify s).1.mapLeaves f, (c.simplify s).2) := by
  unfold Composite.simplify
  rw [run_zeroRotationPass_mapLeaves hf]
  dsimp only
  rw [exhaust_cxCancellationPass_mapLeaves hf]
  dsimp only
  rw [Composite.leafCount_mapLeaves, Composite.leafCount_mapLeaves]

end StatePrep
