import StatePrep.Proofs.Number.Real
import StatePrep.Proofs.Tree.OuterLeaf

/-! # What an address stands for

The address of a leaf stands for a place among all leaves: the leaf read there has so many others
before it (`leavesBefore`), and erasing there takes this one out from between those before it and
those behind it (`Locates`, `exists_locates`). Of the tree itself erasing deletes a single node, the
outermost one that is nothing but the leaf with composites around it (`Cut`, `exists_cut`): these
composites lose their only child one after the other, and the next one out keeps another child.

The search for the outermost leaf below a sibling finds the leaf that comes first, or last, among
those of the sibling (`exists_locates_first`, `exists_locates_last`). So the last leaf below one
sibling and the first one below the next are neighbours, and erasing the one on the right leaves the
address of the other valid (`exists_neighbours`). -/

namespace StatePrep

namespace GateTree

variable {α : Type}

/-! ### Places -/

/-- The number of leaves in front of the one at an address. -/
def leavesBefore : List (GateTree α) → LeafPath → ℕ
  | _, [] => 0
  | ts, k :: below =>
    leafCountAll (ts.take k) +
      match ts[k]? with
      | some (.composite _ children) => leavesBefore children below
      | _ => 0

/-- The leaf at an address is `op`, in the place between the leaves `before` and `behind`, and
erasing there takes it out from between them. -/
structure Locates (ts : List (GateTree α)) (path : LeafPath) (before : List (Operation α))
    (op : Operation α) (behind : List (Operation α)) : Prop where
  getLeaf : getLeaf? ts path = some op
  place : leavesBefore ts path = before.length
  flatten_eq : flattenAll ts = before ++ op :: behind
  flatten_erase : flattenAll (eraseLeaf ts path) = before ++ behind

section Locates

variable {ts : List (GateTree α)} {t : GateTree α} {path below : LeafPath} {op : Operation α}
  {before behind : List (Operation α)}

theorem leavesBefore_append_cons (pre post : List (GateTree α)) (t : GateTree α)
    (below : LeafPath) : leavesBefore (pre ++ t :: post) (pre.length :: below) =
      leafCountAll pre + leavesBefore [t] (0 :: below) := by
  rw [leavesBefore, leavesBefore, List.take_left, List.getElem?_append_right (Nat.le_refl _),
    Nat.sub_self, List.getElem?_cons_zero, List.take_zero, leafCountAll, List.getElem?_cons_zero,
    Nat.zero_add]

theorem locates_leaf (op : Operation α) : Locates [.leaf op] [0] [] op [] :=
  ⟨rfl, rfl, rfl, rfl⟩

theorem Locates.composite (name : String) (h : Locates ts below before op behind) :
    Locates [.composite name ts] (0 :: below) before op behind := by
  have hleaf : (GateTree.composite name ts).leafAt? below = some op := h.getLeaf
  refine ⟨(getLeaf?_append_cons [] [] _ below).trans hleaf, ?_, ?_, ?_⟩
  · rw [leavesBefore, List.take_zero, leafCountAll, Nat.zero_add]
    exact h.place
  · rw [flattenAll, flatten, flattenAll, List.append_nil, h.flatten_eq]
  · have herase := eraseLeaf_append_cons [] [] hleaf
    rw [List.nil_append, List.length_nil] at herase
    rw [herase, ← h.flatten_erase, without]
    split
    · next hempty =>
      rw [List.isEmpty_iff.mp hempty]
      rfl
    · simp [flattenAll, flatten]

theorem Locates.siblings (pre post : List (GateTree α))
    (h : Locates [t] (0 :: below) before op behind) :
    Locates (pre ++ t :: post) (pre.length :: below) (flattenAll pre ++ before) op
      (behind ++ flattenAll post) := by
  have hleaf : t.leafAt? below = some op :=
    (getLeaf?_append_cons [] [] t below).symm.trans h.getLeaf
  have hflat : t.flatten = before ++ op :: behind := by
    rw [← h.flatten_eq, flattenAll, flattenAll, List.append_nil]
  have hwithout : flattenAll (t.without below).toList = before ++ behind := by
    have herase := eraseLeaf_append_cons [] [] hleaf
    rw [List.nil_append, List.append_nil, List.nil_append, List.length_nil] at herase
    rw [← herase, h.flatten_erase]
  refine ⟨(getLeaf?_append_cons pre post t below).trans hleaf, ?_, ?_, ?_⟩
  · rw [leavesBefore_append_cons, h.place, ← length_flattenAll, List.length_append]
  · rw [flattenAll_append, flattenAll, hflat]
    simp
  · rw [eraseLeaf_append_cons pre post hleaf, flattenAll_append, flattenAll_append, hwithout]
    simp

theorem Locates.among {k : ℕ} (hk : ts[k]? = some t)
    (h : Locates [t] (0 :: below) before op behind) :
    Locates ts (k :: below) (flattenAll (ts.take k) ++ before) op
      (behind ++ flattenAll (ts.drop (k + 1))) := by
  obtain ⟨hlt, rfl⟩ := List.getElem?_eq_some_iff.mp hk
  have hall := h.siblings (ts.take k) (ts.drop (k + 1))
  rwa [← List.drop_eq_getElem_cons hlt, List.take_append_drop, List.length_take_of_le hlt.le]
    at hall

/-- **Every address of a leaf stands for a place.** -/
theorem exists_locates (h : getLeaf? ts path = some op) :
    ∃ before behind, Locates ts path before op behind := by
  fun_induction getLeaf? ts path with
  | case1 => cases h
  | case2 ts k op' hk =>
    obtain rfl := Option.some.inj h
    exact ⟨_, _, (locates_leaf op').among hk⟩
  | case3 ts k name children below hk ih =>
    obtain ⟨before, behind, hlocates⟩ := ih h
    exact ⟨_, _, (hlocates.composite name).among hk⟩
  | case4 => cases h

theorem locates_of_place (hleaf : getLeaf? ts path = some op)
    (hplace : leavesBefore ts path = before.length)
    (hflat : flattenAll ts = before ++ op :: behind) : Locates ts path before op behind := by
  obtain ⟨before', behind', h⟩ := exists_locates hleaf
  obtain ⟨rfl, hrest⟩ := List.append_inj (h.flatten_eq.symm.trans hflat) (h.place.symm.trans hplace)
  obtain rfl := (List.cons.inj hrest).2
  exact h

end Locates

/-! ### The node that erasing deletes -/

/-- The tree with a change made to its children, if it is a composite. -/
def onChildren (f : List (GateTree α) → List (GateTree α)) : GateTree α → GateTree α
  | .leaf op => .leaf op
  | .composite name children => .composite name (f children)

/-- The siblings without the node at an address. Every other node stays, with or without
children. -/
def eraseNode : List (GateTree α) → List ℕ → List (GateTree α)
  | ts, [] => ts
  | ts, [k] => ts.eraseIdx k
  | ts, k :: l :: below => ts.modify k (onChildren fun children => eraseNode children (l :: below))

/-- The children of the composite at an address. The empty address stands for the siblings
themselves. -/
def childrenAt? : List (GateTree α) → List ℕ → Option (List (GateTree α))
  | ts, [] => some ts
  | ts, k :: below =>
    match ts[k]? with
    | some (.composite _ children) => childrenAt? children below
    | _ => none

/-- The tree is the leaf at an address with composites around it, none of which has another child.
Without the leaf they all lose their only child, the innermost one first. -/
inductive IsChain : GateTree α → LeafPath → Prop
  | leaf (op : Operation α) : IsChain (.leaf op) []
  | composite (name : String) {t : GateTree α} {below : LeafPath} (h : IsChain t below) :
    IsChain (.composite name [t]) (0 :: below)

/-- Erasing the leaf at `outer ++ k :: chain` deletes the node at `outer ++ [k]` and nothing else.
This node is the leaf with the composites that lose their only child, and the composite it is a
child of, if there is one, keeps another child. -/
structure Cut (ts : List (GateTree α)) (outer : List ℕ) (k : ℕ) (chain : LeafPath) : Prop where
  erase_eq : eraseLeaf ts (outer ++ k :: chain) = eraseNode ts (outer ++ [k])
  emptied : ∃ siblings t, childrenAt? ts outer = some siblings ∧ siblings[k]? = some t ∧
    t.IsChain chain ∧ (outer ≠ [] → 1 < siblings.length)

section Cut

variable {ts children siblings : List (GateTree α)} {k j : ℕ} {name : String}

theorem eraseLeaf_of_composite (hk : ts[k]? = some (.composite name children)) {below : LeafPath}
    (hbelow : below ≠ []) : eraseLeaf ts (k :: below) =
      if (eraseLeaf children below).isEmpty then ts.eraseIdx k
      else ts.set k (.composite name (eraseLeaf children below)) := by
  obtain ⟨l, below, rfl⟩ := List.exists_cons_of_ne_nil hbelow
  rw [eraseLeaf, hk]

theorem eraseNode_of_composite (hk : ts[k]? = some (.composite name children)) {below : List ℕ}
    (hbelow : below ≠ []) :
    eraseNode ts (k :: below) = ts.set k (.composite name (eraseNode children below)) := by
  obtain ⟨l, below, rfl⟩ := List.exists_cons_of_ne_nil hbelow
  rw [eraseNode, List.modify_eq_set_getElem?, hk]
  rfl

theorem eraseNode_ne_nil {below : List ℕ} (hk : childrenAt? ts (k :: below) = some siblings) :
    eraseNode ts (k :: (below ++ [j])) ≠ [] := by
  cases hget : ts[k]? with
  | none => simp [childrenAt?, hget] at hk
  | some t =>
    cases t with
    | leaf op => simp [childrenAt?, hget] at hk
    | composite name children =>
      rw [eraseNode_of_composite hget (by simp), ne_eq, List.set_eq_nil_iff]
      rintro rfl
      cases hget

/-- A composite that keeps a child when a leaf below it is erased stays with the rest. -/
theorem Cut.inside {outer : List ℕ} {chain : LeafPath}
    (hk : ts[k]? = some (.composite name children)) (h : Cut children outer j chain)
    (hne : eraseLeaf children (outer ++ j :: chain) ≠ []) : Cut ts (k :: outer) j chain := by
  obtain ⟨siblings, t, hsiblings, hj, hchain, hkept⟩ := h.emptied
  refine ⟨?_, siblings, t, ?_, hj, hchain, fun _ => ?_⟩
  · rw [List.cons_append, List.cons_append, eraseLeaf_of_composite hk (by simp),
      eraseNode_of_composite hk (by simp), if_neg (by simpa using hne), h.erase_eq]
  · rw [childrenAt?, hk]
    exact hsiblings
  · cases outer with
    | nil =>
      obtain rfl := Option.some.inj hsiblings
      have hlt := (List.getElem?_eq_some_iff.mp hj).1
      rw [h.erase_eq, List.nil_append, eraseNode, ← List.length_pos_iff,
        List.length_eraseIdx_of_lt hlt] at hne
      omega
    | cons l outer => exact hkept (by simp)

/-- A composite that loses its only child when a leaf below it is erased is deleted with it. -/
theorem Cut.around {outer : List ℕ} {chain : LeafPath}
    (hk : ts[k]? = some (.composite name children)) (h : Cut children outer j chain)
    (hnil : eraseLeaf children (outer ++ j :: chain) = []) : Cut ts [] k (outer ++ j :: chain) := by
  obtain ⟨siblings, t, hsiblings, hj, hchain, hkept⟩ := h.emptied
  have honly : GateTree.IsChain (.composite name children) (outer ++ j :: chain) := by
    cases outer with
    | nil =>
      obtain rfl := Option.some.inj hsiblings
      rw [h.erase_eq, List.nil_append, eraseNode, List.eraseIdx_eq_nil_iff] at hnil
      rcases hnil with rfl | ⟨hlen, rfl⟩
      · cases hj
      · obtain ⟨only, rfl⟩ := List.length_eq_one_iff.mp hlen
        obtain rfl := Option.some.inj hj
        exact .composite name hchain
    | cons l outer =>
      rw [h.erase_eq] at hnil
      exact absurd hnil (eraseNode_ne_nil hsiblings)
  refine ⟨?_, ts, _, rfl, hk, honly, fun hne => absurd rfl hne⟩
  rw [List.nil_append, eraseLeaf_of_composite hk (by simp), if_pos (by rw [hnil]; rfl)]
  rfl

/-- **Erasing a leaf deletes one node**, the outermost one that is nothing but the leaf with
composites around it. -/
theorem exists_cut {op : Operation α} {path : LeafPath} (h : getLeaf? ts path = some op) :
    ∃ outer k chain, path = outer ++ k :: chain ∧ Cut ts outer k chain := by
  fun_induction getLeaf? ts path with
  | case1 => cases h
  | case2 ts k op' hk =>
    exact ⟨[], k, [], rfl, rfl, ts, _, rfl, hk, .leaf op', fun hne => absurd rfl hne⟩
  | case3 ts k name children below hk ih =>
    obtain ⟨outer, j, chain, rfl, hcut⟩ := ih h
    by_cases hnil : eraseLeaf children (outer ++ j :: chain) = []
    · exact ⟨[], k, _, rfl, hcut.around hk hnil⟩
    · exact ⟨k :: outer, j, chain, rfl, hcut.inside hk hnil⟩
  | case4 => cases h

end Cut

/-! ### The search -/

theorem outerPathAt?_eq_none_iff {side : Side} {ts : List (GateTree α)} {k : ℕ} :
    outerPathAt? side ts k = none ↔
      ts.length ≤ k ∨ ∃ t, ts[k]? = some t ∧ t.flatten = [] := by
  rw [outerPathAt?, ← List.getElem?_eq_none_iff]
  cases hk : ts[k]? with
  | none => simp
  | some t => simp [outerPath?_eq_none_iff]

theorem exists_locates_of_outerPath? {side : Side} : ∀ (t : GateTree α) {below : LeafPath},
    t.outerPath? side = some below → ∃ before op behind,
      Locates [t] (0 :: below) before op behind ∧ side.skipped before behind = []
  | .leaf op, below, h => by
    simp only [outerPath?, Option.some.injEq] at h
    subst h
    exact ⟨[], op, [], locates_leaf op, by cases side <;> rfl⟩
  | .composite name children, below, h => by
    rw [outerPath?] at h
    obtain ⟨pre, t, post, below, hsplit, rfl, hb, hskip⟩ := exists_append_of_outerPathAll? h
    have : sizeOf t < sizeOf children := List.sizeOf_lt_of_mem (by simp [hsplit])
    obtain ⟨before, op, behind, hlocates, hnone⟩ := exists_locates_of_outerPath? t hb
    subst hsplit
    rw [Nat.zero_add]
    refine ⟨_, op, _, (hlocates.siblings pre post).composite name, ?_⟩
    cases side with
    | first =>
      rw [Side.skipped] at hskip hnone ⊢
      rw [hskip, hnone, List.nil_append]
    | last =>
      rw [Side.skipped] at hskip hnone ⊢
      rw [hskip, hnone, List.nil_append]
termination_by t => sizeOf t
decreasing_by simp only [composite.sizeOf_spec]; omega

/-- **The search among siblings** finds the outermost one of the leaves below the sibling. -/
theorem exists_locates_of_outerPathAt? {side : Side} {ts : List (GateTree α)} {k : ℕ}
    {path : LeafPath} (h : outerPathAt? side ts k = some path) : ∃ t before op behind,
      ts[k]? = some t ∧ t.flatten = before ++ op :: behind ∧ side.skipped before behind = [] ∧
        Locates ts path (flattenAll (ts.take k) ++ before) op
          (behind ++ flattenAll (ts.drop (k + 1))) := by
  rw [outerPathAt?, Option.bind_eq_some_iff] at h
  obtain ⟨t, hk, h⟩ := h
  obtain ⟨below, hbelow, rfl⟩ := Option.map_eq_some_iff.mp h
  obtain ⟨before, op, behind, hlocates, hnone⟩ := exists_locates_of_outerPath? t hbelow
  refine ⟨t, before, op, behind, hk, ?_, hnone, hlocates.among hk⟩
  rw [← hlocates.flatten_eq, flattenAll, flattenAll, List.append_nil]

section Siblings

variable {ts : List (GateTree α)} {k : ℕ} {path : LeafPath}

theorem exists_locates_first (h : outerPathAt? .first ts k = some path) : ∃ t op behind,
    ts[k]? = some t ∧ t.flatten = op :: behind ∧
      Locates ts path (flattenAll (ts.take k)) op (behind ++ flattenAll (ts.drop (k + 1))) := by
  obtain ⟨t, before, op, behind, hk, hflat, rfl, hlocates⟩ := exists_locates_of_outerPathAt? h
  rw [List.append_nil] at hlocates
  exact ⟨t, op, behind, hk, hflat, hlocates⟩

theorem exists_locates_last (h : outerPathAt? .last ts k = some path) : ∃ t before op,
    ts[k]? = some t ∧ t.flatten = before ++ [op] ∧
      Locates ts path (flattenAll (ts.take k) ++ before) op (flattenAll (ts.drop (k + 1))) := by
  obtain ⟨t, before, op, behind, hk, hflat, rfl, hlocates⟩ := exists_locates_of_outerPathAt? h
  rw [List.nil_append] at hlocates
  exact ⟨t, before, op, hk, hflat, hlocates⟩

end Siblings

/-! ### Neighbours -/

section Neighbours

variable {ts : List (GateTree α)} {j k : ℕ}

/-- Erasing below one sibling does not change what is found below the siblings before it. -/
theorem outerPathAt?_eraseLeaf_of_lt (side : Side) (hjk : j < k) (below : LeafPath) :
    outerPathAt? side (eraseLeaf ts (k :: below)) j = outerPathAt? side ts j := by
  rw [outerPathAt?, outerPathAt?, getElem?_eraseLeaf_of_lt hjk]

theorem leavesBefore_eraseLeaf_of_lt (hjk : j < k) (left right : LeafPath) :
    leavesBefore (eraseLeaf ts (k :: right)) (j :: left) = leavesBefore ts (j :: left) := by
  have htake : (eraseLeaf ts (k :: right)).take j = ts.take j := by
    refine List.ext_getElem? fun i => ?_
    rw [List.getElem?_take, List.getElem?_take]
    split
    · exact getElem?_eraseLeaf_of_lt (by omega) right
    · rfl
  rw [leavesBefore, leavesBefore, htake, getElem?_eraseLeaf_of_lt hjk]

/-- **The last leaf below a sibling and the first one below the next** are neighbours, and erasing
the one on the right leaves the other where it is. -/
theorem exists_neighbours {left right : LeafPath} (hl : outerPathAt? .last ts k = some left)
    (hr : outerPathAt? .first ts (k + 1) = some right) :
    ∃ before l r behind, Locates ts left before l (r :: behind) ∧
      Locates ts right (before ++ [l]) r behind ∧
      outerPathAt? .last (eraseLeaf ts right) k = some left ∧
      Locates (eraseLeaf ts right) left before l behind := by
  obtain ⟨t, before, l, hk, hflat, hleft⟩ := exists_locates_last hl
  obtain ⟨-, r, behind, -, -, hright⟩ := exists_locates_first hr
  have hfront : flattenAll (ts.take (k + 1)) = flattenAll (ts.take k) ++ before ++ [l] := by
    rw [List.take_add_one, hk, flattenAll_append, Option.toList_some, flattenAll, flattenAll, hflat]
    simp
  rw [hfront] at hright
  have hback : flattenAll (ts.drop (k + 1)) =
      r :: (behind ++ flattenAll (ts.drop (k + 1 + 1))) := by
    simpa using hleft.flatten_eq.symm.trans hright.flatten_eq
  rw [hback] at hleft
  obtain ⟨below, rfl⟩ := exists_eq_cons_of_outerPathAt? hl
  obtain ⟨below', rfl⟩ := exists_eq_cons_of_outerPathAt? hr
  have hlt : k < k + 1 := Nat.lt_add_one k
  refine ⟨_, l, r, _, hleft, hright, ?_, locates_of_place ?_ ?_ ?_⟩
  · rw [outerPathAt?_eraseLeaf_of_lt _ hlt, hl]
  · rw [getLeaf?_eraseLeaf_of_lt hlt, hleft.getLeaf]
  · rw [leavesBefore_eraseLeaf_of_lt hlt, hleft.place]
  · rw [hright.flatten_erase, List.append_assoc]
    rfl

end Neighbours

/-- **Addresses of leaves are exact.** The search below a sibling fails just for an index out of
range and for a sibling without leaves, and otherwise finds the first leaf below the sibling, or the
last one. Erasing at the address of a leaf takes this leaf out of the flattened list and keeps the
others in order; of the tree it deletes the leaf with those composites around it that lose their
only child, and nothing else. Where the last leaf below a sibling and the first one below the next
are found, the two are neighbours, and when the right one is erased the left one is still found at
its address. -/
theorem leaf_addresses_exact (ts : List (GateTree α)) (k : ℕ) :
    (∀ side, outerPathAt? side ts k = none ↔
      ts.length ≤ k ∨ ∃ t, ts[k]? = some t ∧ t.flatten = []) ∧
    (∀ path, outerPathAt? .first ts k = some path → ∃ t op behind,
      ts[k]? = some t ∧ t.flatten = op :: behind ∧
        Locates ts path (flattenAll (ts.take k)) op (behind ++ flattenAll (ts.drop (k + 1)))) ∧
    (∀ path, outerPathAt? .last ts k = some path → ∃ t before op,
      ts[k]? = some t ∧ t.flatten = before ++ [op] ∧
        Locates ts path (flattenAll (ts.take k) ++ before) op (flattenAll (ts.drop (k + 1)))) ∧
    (∀ path op, getLeaf? ts path = some op →
      (∃ before behind, Locates ts path before op behind) ∧
        ∃ outer j chain, path = outer ++ j :: chain ∧ Cut ts outer j chain) ∧
    ∀ left right, outerPathAt? .last ts k = some left →
      outerPathAt? .first ts (k + 1) = some right →
        ∃ before l r behind, Locates ts left before l (r :: behind) ∧
          Locates ts right (before ++ [l]) r behind ∧
          outerPathAt? .last (eraseLeaf ts right) k = some left ∧
          Locates (eraseLeaf ts right) left before l behind := by
  refine ⟨fun side => outerPathAt?_eq_none_iff, fun path => exists_locates_first,
    fun path => exists_locates_last, fun path op h => ?_, fun left right => exists_neighbours⟩
  exact ⟨exists_locates h, exists_cut h⟩

/-- Two siblings whose nearest leaves have composites without leaves between them. -/
theorem leaf_addresses_exact_nested :
    let ts : List (GateTree ℚ) :=
      [.composite "left" [.leaf (.rotation .y (1 / 2) ⟨0⟩),
          .composite "inner" [.leaf (.cx ⟨1⟩ ⟨0⟩)], .composite "empty" []],
        .composite "right" [.composite "empty" [], .leaf (.cx ⟨1⟩ ⟨0⟩)]]
    outerPathAt? .first ts 0 = some [0, 0] ∧ outerPathAt? .last ts 0 = some [0, 1, 0] ∧
      outerPathAt? .first ts 1 = some [1, 1] ∧
      getLeaf? ts [0, 1, 0] = some (.cx ⟨1⟩ ⟨0⟩) ∧
      (∃ t op behind, ts[0]? = some t ∧ t.flatten = op :: behind ∧
        Locates ts [0, 0] [] op (behind ++ flattenAll (ts.drop 1))) ∧
      (∃ t before op, ts[0]? = some t ∧ t.flatten = before ++ [op] ∧
        Locates ts [0, 1, 0] ([] ++ before) op (flattenAll (ts.drop 1))) ∧
      (∃ outer j chain, [0, 1, 0] = outer ++ j :: chain ∧ Cut ts outer j chain) ∧
      ∃ before l r behind, Locates ts [0, 1, 0] before l (r :: behind) ∧
        Locates ts [1, 1] (before ++ [l]) r behind ∧
        outerPathAt? .last (eraseLeaf ts [1, 1]) 0 = some [0, 1, 0] ∧
        Locates (eraseLeaf ts [1, 1]) [0, 1, 0] before l behind := by
  intro ts
  obtain ⟨-, first, last, erased, neighbours⟩ := leaf_addresses_exact ts 0
  exact ⟨rfl, rfl, rfl, rfl, first _ rfl, last _ rfl, (erased _ (.cx ⟨1⟩ ⟨0⟩) rfl).2,
    neighbours _ _ rfl rfl⟩

end GateTree

end StatePrep
