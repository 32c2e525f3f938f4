import StatePrep.Simplify.Pass
import StatePrep.Tree.Path

/-! # Cancelling controlled flips

Two equal controlled flips in a row undo each other. They may sit in different composites: what
counts is that the last leaf below one sibling is followed by the first leaf below the next. The
pass works from the inside out. Within each list of siblings it looks at neighbours from left to
right, and after a cancellation goes one sibling back, where two new leaves may have met.

`leafCountAll_cancelAt?` says that a cancellation removes two leaves, on which both the end of the
scan and the count of the pass rest. -/

namespace StatePrep

namespace CxCancellation

open GateTree

variable {α : Type}

/-! ### One pair -/

/-- The siblings without the last leaf below the one at `k` and the first leaf below the one at
`k + 1`, provided these two are the same controlled flip. The right leaf goes first, which leaves
the address of the left one valid. -/
def cancelAt? (ts : List (GateTree α)) (k : Nat) : Option (List (GateTree α)) :=
  match outerPathAt? .last ts k, outerPathAt? .first ts (k + 1) with
  | some left, some right =>
    match getLeaf? ts left, getLeaf? ts right with
    | some op, some next =>
      if op.cancels next then some (eraseLeaf (eraseLeaf ts right) left) else none
    | _, _ => none
  | _, _ => none

/-- **A cancellation removes two leaves.** -/
theorem leafCountAll_cancelAt? {ts us : List (GateTree α)} {k : Nat}
    (h : cancelAt? ts k = some us) : leafCountAll us + 2 = leafCountAll ts := by
  unfold cancelAt? at h
  split at h
  · next left right hl hr =>
    split at h
    · next op next hop hnext =>
      split at h
      · cases h
        obtain ⟨left, rfl⟩ := exists_eq_cons_of_outerPathAt? hl
        obtain ⟨right, rfl⟩ := exists_eq_cons_of_outerPathAt? hr
        rw [← getLeaf?_eraseLeaf_of_lt (Nat.lt_add_one k) left right] at hop
        have := leafCountAll_eraseLeaf hnext
        have := leafCountAll_eraseLeaf hop
        omega
      · cases h
    · cases h
  · cases h

/-! ### Siblings -/

/-- Cancels pairs of neighbours from the sibling at `k` on, one step back after each cancellation,
and counts the leaves removed. -/
def cancelFrom (k : Nat) (ts : List (GateTree α)) : List (GateTree α) × Nat :=
  if _hk : k + 1 < ts.length then
    match _h : cancelAt? ts k with
    | some us =>
      let later := cancelFrom (k - 1) us
      (later.1, later.2 + 2)
    | none => cancelFrom (k + 1) ts
  else (ts, 0)
termination_by (leafCountAll ts, ts.length - k)
decreasing_by
  · have := leafCountAll_cancelAt? _h
    exact Prod.Lex.left _ _ (by omega)
  · exact Prod.Lex.right _ (by omega)

theorem leafCountAll_cancelFrom (k : Nat) (ts : List (GateTree α)) :
    leafCountAll (cancelFrom k ts).1 + (cancelFrom k ts).2 = leafCountAll ts := by
  fun_induction cancelFrom k ts with
  | case1 k ts hk us h later ih =>
    have := leafCountAll_cancelAt? h
    change leafCountAll (cancelFrom (k - 1) us).1 + ((cancelFrom (k - 1) us).2 + 2) = _
    omega
  | case2 k ts hk h ih => exact ih
  | case3 => rfl

theorem cancelFrom_of_length_le {k : Nat} {ts : List (GateTree α)} (h : ts.length ≤ k + 1) :
    cancelFrom k ts = (ts, 0) := by
  rw [cancelFrom, dif_neg (Nat.not_lt.mpr h)]

/-! ### The whole tree -/

mutual

/-- What is left of a tree, if anything, and the number of leaves taken out of it. -/
def cancelIn : GateTree α → Option (GateTree α) × Nat
  | .leaf op => (some (.leaf op), 0)
  | .composite name children =>
    let inner := cancelInEach children
    let outer := cancelFrom 0 inner.1
    (if outer.1.isEmpty then none else some (.composite name outer.1), inner.2 + outer.2)

/-- What is left of each of a list of trees, and the number of leaves taken out of them. -/
def cancelInEach : List (GateTree α) → List (GateTree α) × Nat
  | [] => ([], 0)
  | t :: ts =>
    let first := cancelIn t
    let others := cancelInEach ts
    (first.1.toList ++ others.1, first.2 + others.2)

end

/-- Cancels inside each of the trees, then between neighbours. -/
def cancelAll (ts : List (GateTree α)) : List (GateTree α) × Nat :=
  let inner := cancelInEach ts
  let outer := cancelFrom 0 inner.1
  (outer.1, inner.2 + outer.2)

theorem cancelAll_singleton (t : GateTree α) :
    cancelAll [t] = ((cancelIn t).1.toList, (cancelIn t).2) := by
  have hinner : cancelInEach [t] = ((cancelIn t).1.toList, (cancelIn t).2) := by
    rw [cancelInEach, cancelInEach, List.append_nil, Nat.add_zero]
  have hlength : (cancelIn t).1.toList.length ≤ 1 := by cases (cancelIn t).1 <;> simp
  rw [cancelAll, hinner, cancelFrom_of_length_le hlength]
  rfl

/-- **A lone composite** has no neighbour, so only what is inside it is cancelled, and it goes if
nothing is left of that. -/
theorem cancelAll_composite (name : String) (children : List (GateTree α)) :
    cancelAll [.composite name children] =
      (if (cancelAll children).1.isEmpty then [] else [.composite name (cancelAll children).1],
        (cancelAll children).2) := by
  have htree : cancelIn (.composite name children) =
      (if (cancelAll children).1.isEmpty then none
        else some (.composite name (cancelAll children).1), (cancelAll children).2) := by
    rw [cancelIn]
    rfl
  rw [cancelAll_singleton, htree]
  cases (cancelAll children).1.isEmpty <;> rfl

mutual

theorem leafCount_cancelIn : ∀ t : GateTree α,
    leafCountAll (cancelIn t).1.toList + (cancelIn t).2 = t.leafCount
  | .leaf op => by simp [cancelIn, leafCountAll, leafCount]
  | .composite name children => by
    have inner := leafCountAll_cancelInEach children
    have outer := leafCountAll_cancelFrom 0 (cancelInEach children).1
    rw [cancelIn, leafCount]
    dsimp only
    split
    · next h =>
      rw [List.isEmpty_iff.mp h, leafCountAll] at outer
      rw [Option.toList, leafCountAll]
      omega
    · rw [Option.toList, leafCountAll, leafCountAll, leafCount]
      omega

theorem leafCountAll_cancelInEach : ∀ ts : List (GateTree α),
    leafCountAll (cancelInEach ts).1 + (cancelInEach ts).2 = leafCountAll ts
  | [] => rfl
  | t :: ts => by
    have first := leafCount_cancelIn t
    have others := leafCountAll_cancelInEach ts
    rw [cancelInEach, leafCountAll, leafCountAll_append]
    omega

end

theorem leafCountAll_cancelAll (ts : List (GateTree α)) :
    leafCountAll (cancelAll ts).1 + (cancelAll ts).2 = leafCountAll ts := by
  have inner := leafCountAll_cancelInEach ts
  have outer := leafCountAll_cancelFrom 0 (cancelInEach ts).1
  change leafCountAll (cancelFrom 0 (cancelInEach ts).1).1 + (_ + _) = _
  omega

end CxCancellation

/-- The pass that cancels neighbouring controlled flips. It compares no numbers. -/
def cxCancellationPass {α : Type} : Pass α where
  name := "CancelDoubleCx"
  run _ c :=
    let kept := CxCancellation.cancelAll c.children
    ({ c with children := kept.1 }, kept.2)
  leafCount_run _ c := CxCancellation.leafCountAll_cancelAll c.children

end StatePrep
