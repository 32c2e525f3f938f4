import StatePrep.Tree.Basic

/-! # Places of leaves

A leaf below a list of siblings is addressed by child indices: which sibling, which of its
children, and so on down to the leaf. `outerPathAt?` finds the first or the last leaf below one
sibling, stepping over composites without leaves; `getLeaf?` reads the leaf at an address, and
`eraseLeaf` takes it out together with every composite that this leaves without children.

The main facts count leaves: `leafCountAll_eraseLeaf` says that erasing at the address of a leaf
takes away that one leaf, and `getLeaf?_eraseLeaf_of_lt` that the leaves below earlier siblings
keep their address. -/

namespace StatePrep

/-- The address of a leaf: the index of a sibling, then child indices downwards. -/
abbrev LeafPath := List Nat

/-- One end of the leaves below a tree. -/
inductive Side where
  | first
  | last
  deriving DecidableEq

namespace GateTree

variable {α : Type}

/-! ### Finding, reading and erasing -/

mutual

/-- The address of the outermost leaf on the given side, from the tree downwards. -/
def outerPath? (side : Side) : GateTree α → Option LeafPath
  | .leaf _ => some []
  | .composite _ children => outerPathAll? side 0 children

/-- The address of the outermost leaf on the given side among trees numbered from `k` on. -/
def outerPathAll? (side : Side) (k : Nat) : List (GateTree α) → Option LeafPath
  | [] => none
  | t :: ts =>
    match side with
    | .first => ((t.outerPath? .first).map (k :: ·)).or (outerPathAll? .first (k + 1) ts)
    | .last => (outerPathAll? .last (k + 1) ts).or ((t.outerPath? .last).map (k :: ·))

end

/-- The address of the outermost leaf on the given side below the sibling at `k`. -/
def outerPathAt? (side : Side) (ts : List (GateTree α)) (k : Nat) : Option LeafPath :=
  ts[k]?.bind fun t => (t.outerPath? side).map (k :: ·)

/-- The leaf at an address. -/
def getLeaf? : List (GateTree α) → LeafPath → Option (Operation α)
  | _, [] => none
  | ts, k :: below =>
    match ts[k]?, below with
    | some (.leaf op), [] => some op
    | some (.composite _ children), below => getLeaf? children below
    | _, _ => none

/-- The siblings without the leaf at an address, and without the composites that lost their last
child with it. -/
def eraseLeaf : List (GateTree α) → LeafPath → List (GateTree α)
  | ts, [] => ts
  | ts, [k] => ts.eraseIdx k
  | ts, k :: l :: below =>
    match ts[k]? with
    | some (.composite name children) =>
      let kept := eraseLeaf children (l :: below)
      if kept.isEmpty then ts.eraseIdx k else ts.set k (.composite name kept)
    | _ => ts

/-! ### Counting -/

/-- The leaves of a list are those before, below and behind any one of its trees. -/
theorem leafCountAll_split {ts : List (GateTree α)} {k : Nat} {t : GateTree α}
    (h : ts[k]? = some t) : leafCountAll ts =
      leafCountAll (ts.take k) + t.leafCount + leafCountAll (ts.drop (k + 1)) := by
  obtain ⟨hk, rfl⟩ := List.getElem?_eq_some_iff.mp h
  conv => lhs; rw [← List.take_append_drop k ts, List.drop_eq_getElem_cons hk]
  rw [leafCountAll_append, leafCountAll]
  omega

theorem leafCountAll_eraseIdx (ts : List (GateTree α)) (k : Nat) :
    leafCountAll (ts.eraseIdx k) = leafCountAll (ts.take k) + leafCountAll (ts.drop (k + 1)) := by
  rw [List.eraseIdx_eq_take_drop_succ, leafCountAll_append]

theorem leafCountAll_set {ts : List (GateTree α)} {k : Nat} (hk : k < ts.length) (t : GateTree α) :
    leafCountAll (ts.set k t) =
      leafCountAll (ts.take k) + t.leafCount + leafCountAll (ts.drop (k + 1)) := by
  rw [List.set_eq_take_append_cons_drop, if_pos hk, leafCountAll_append, leafCountAll]
  omega

/-- **Erasing takes one leaf.** Erasing at the address of a leaf leaves one leaf fewer. -/
theorem leafCountAll_eraseLeaf {ts : List (GateTree α)} {path : LeafPath} {op : Operation α}
    (h : getLeaf? ts path = some op) : leafCountAll (eraseLeaf ts path) + 1 = leafCountAll ts := by
  fun_induction getLeaf? ts path with
  | case1 => cases h
  | case2 ts k op' hk =>
    rw [eraseLeaf, leafCountAll_eraseIdx, leafCountAll_split hk, leafCount]
    omega
  | case3 ts k name children below hk ih =>
    have hlt : k < ts.length := (List.getElem?_eq_some_iff.mp hk).1
    cases below with
    | nil => simp [getLeaf?] at h
    | cons l below =>
      have key := ih h
      rw [leafCountAll_split hk, leafCount, eraseLeaf]
      simp only [hk]
      split
      · next hempty =>
        rw [List.isEmpty_iff] at hempty
        rw [hempty, leafCountAll] at key
        rw [leafCountAll_eraseIdx]
        omega
      · rw [leafCountAll_set hlt, leafCount]
        omega
  | case4 => cases h

/-! ### Neighbours -/

/-- Erasing below one sibling does not touch the siblings before it. -/
theorem getElem?_eraseLeaf_of_lt {ts : List (GateTree α)} {j k : Nat} (hjk : j < k)
    (below : LeafPath) : (eraseLeaf ts (k :: below))[j]? = ts[j]? := by
  cases below with
  | nil => rw [eraseLeaf, List.getElem?_eraseIdx_of_lt hjk]
  | cons l below =>
    rw [eraseLeaf]
    split
    · dsimp only
      split
      · rw [List.getElem?_eraseIdx_of_lt hjk]
      · rw [List.getElem?_set_ne (by omega)]
    · rfl

/-- A leaf keeps its address when another one is erased below a later sibling. -/
theorem getLeaf?_eraseLeaf_of_lt {ts : List (GateTree α)} {j k : Nat} (hjk : j < k)
    (left right : LeafPath) :
    getLeaf? (eraseLeaf ts (k :: right)) (j :: left) = getLeaf? ts (j :: left) := by
  unfold getLeaf?
  rw [getElem?_eraseLeaf_of_lt hjk]

/-- The address of a leaf below a sibling starts with the index of that sibling. -/
theorem exists_eq_cons_of_outerPathAt? {side : Side} {ts : List (GateTree α)} {k : Nat}
    {path : LeafPath} (h : outerPathAt? side ts k = some path) : ∃ below, path = k :: below := by
  rw [outerPathAt?, Option.bind_eq_some_iff] at h
  obtain ⟨t, -, h⟩ := h
  obtain ⟨below, -, rfl⟩ := Option.map_eq_some_iff.mp h
  exact ⟨below, rfl⟩

end GateTree

end StatePrep
