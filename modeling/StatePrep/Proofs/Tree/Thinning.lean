import Mathlib.Order.Interval.Finset.Nat
import StatePrep.Proofs.Tree.OuterLeaf

/-! # Thinning trees

Leaves are taken out of a tree in two steps. With the leaves numbered from left to right,
`deleteAll gone` deletes those with the given numbers and nothing else, and `pruneAll` then removes
every composite that has no leaf below it, whether it lost its leaves or never had any. Both keep
the leaves that survive in their order, and the names of the composites around each of them
(`namedLeavesAll_deleteAll`, `namedLeavesAll_pruneAll`).

A program takes leaves out one after the other and drops composites on the way. `Thins` is closed
under that: it holds between a list of trees and what is left of it after any number of such steps
(`Thins.trans`, `thins_eraseLeaf`). That it comes to one deletion and one pruning is
`Thins.exists_isThinning`. -/

namespace StatePrep

variable {α β : Type}

/-! ### Numbered lists -/

/-- The entries of a list, numbered from `k` on, whose number is not among those given. -/
def survivors (gone : Finset ℕ) : ℕ → List β → List β
  | _, [] => []
  | k, x :: xs => if k ∈ gone then survivors gone (k + 1) xs else x :: survivors gone (k + 1) xs

theorem survivors_append (gone : Finset ℕ) : ∀ (k : ℕ) (xs ys : List β),
    survivors gone k (xs ++ ys) = survivors gone k xs ++ survivors gone (k + xs.length) ys
  | _, [], _ => rfl
  | k, x :: xs, ys => by
    have hplace : k + (x :: xs).length = k + 1 + xs.length := by rw [List.length_cons]; omega
    rw [List.cons_append, survivors, survivors, survivors_append gone (k + 1) xs ys, hplace]
    split <;> rfl

theorem map_survivors {γ : Type} (f : β → γ) (gone : Finset ℕ) : ∀ (k : ℕ) (xs : List β),
    (survivors gone k xs).map f = survivors gone k (xs.map f)
  | _, [] => rfl
  | k, x :: xs => by
    rw [List.map_cons, survivors, survivors, ← map_survivors f gone (k + 1) xs]
    split <;> rfl

theorem mem_survivors_of_notMem {gone : Finset ℕ} {x : β} : ∀ {k i : ℕ} {xs : List β},
    xs[i]? = some x → k + i ∉ gone → x ∈ survivors gone k xs
  | k, i, y :: xs, hx, hi => by
    rw [survivors]
    cases i with
    | zero =>
      obtain rfl : y = x := by simpa using hx
      rw [Nat.add_zero] at hi
      rw [if_neg hi]
      exact List.mem_cons_self
    | succ i =>
      have hrest : x ∈ survivors gone (k + 1) xs := by
        refine mem_survivors_of_notMem (i := i) (by simpa using hx) ?_
        rwa [Nat.add_right_comm]
      split
      · exact hrest
      · exact List.mem_cons_of_mem y hrest

/-- **The entries that survive and the numbers given** are as many as there are entries, if the
numbers are numbers of entries. -/
theorem length_survivors_add_card (gone : Finset ℕ) : ∀ (k : ℕ) (xs : List β),
    (survivors gone k xs).length + (gone ∩ Finset.Ico k (k + xs.length)).card = xs.length
  | k, [] => by simp [survivors]
  | k, x :: xs => by
    have hsplit : Finset.Ico k (k + (x :: xs).length) =
        insert k (Finset.Ico (k + 1) (k + 1 + xs.length)) := by
      ext i
      rw [Finset.mem_insert, Finset.mem_Ico, Finset.mem_Ico, List.length_cons]
      omega
    have ih := length_survivors_add_card gone (k + 1) xs
    have hnew : k ∉ gone ∩ Finset.Ico (k + 1) (k + 1 + xs.length) := by simp
    rw [hsplit, survivors, List.length_cons]
    by_cases hk : k ∈ gone
    · rw [if_pos hk, Finset.inter_insert_of_mem hk, Finset.card_insert_of_notMem hnew]
      omega
    · rw [if_neg hk, Finset.inter_insert_of_notMem hk, List.length_cons]
      omega

namespace GateTree

/-! ### Deleting and pruning -/

mutual

/-- What is left of a tree, whose first leaf has the number `k`, without the leaves with the given
numbers. -/
def delete (gone : Finset ℕ) (k : ℕ) : GateTree α → Option (GateTree α)
  | .leaf op => if k ∈ gone then none else some (.leaf op)
  | .composite name children => some (.composite name (deleteAll gone k children))

/-- What is left of a list of trees without the leaves with the given numbers. -/
def deleteAll (gone : Finset ℕ) (k : ℕ) : List (GateTree α) → List (GateTree α)
  | [] => []
  | t :: ts => (delete gone k t).toList ++ deleteAll gone (k + t.leafCount) ts

end

mutual

/-- The tree without the composites that have no leaf below them. -/
def prune : GateTree α → Option (GateTree α)
  | .leaf op => some (.leaf op)
  | .composite name children =>
    if (flattenAll children).isEmpty then none else some (.composite name (pruneAll children))

/-- The trees without the composites that have no leaf below them. -/
def pruneAll : List (GateTree α) → List (GateTree α)
  | [] => []
  | t :: ts => (prune t).toList ++ pruneAll ts

end

theorem deleteAll_append (gone : Finset ℕ) : ∀ (k : ℕ) (ts us : List (GateTree α)),
    deleteAll gone k (ts ++ us) = deleteAll gone k ts ++ deleteAll gone (k + leafCountAll ts) us
  | _, [], _ => rfl
  | k, t :: ts, us => by
    rw [List.cons_append, deleteAll, deleteAll, deleteAll_append gone _ ts us, leafCountAll,
      List.append_assoc, Nat.add_assoc]

theorem pruneAll_append : ∀ ts us : List (GateTree α),
    pruneAll (ts ++ us) = pruneAll ts ++ pruneAll us
  | [], _ => rfl
  | t :: ts, us => by
    rw [List.cons_append, pruneAll, pruneAll, pruneAll_append ts us, List.append_assoc]

mutual

theorem delete_congr {g g' : Finset ℕ} : ∀ {k : ℕ} {t : GateTree α},
    (∀ i, k ≤ i → i < k + t.leafCount → (i ∈ g ↔ i ∈ g')) → delete g k t = delete g' k t
  | k, .leaf op, h => by
    have hk := h k le_rfl (by rw [leafCount]; omega)
    simp only [delete, hk]
  | k, .composite name children, h => by
    rw [delete, delete, deleteAll_congr h]

theorem deleteAll_congr {g g' : Finset ℕ} : ∀ {k : ℕ} {ts : List (GateTree α)},
    (∀ i, k ≤ i → i < k + leafCountAll ts → (i ∈ g ↔ i ∈ g')) → deleteAll g k ts = deleteAll g' k ts
  | _, [], _ => rfl
  | k, t :: ts, h => by
    rw [leafCountAll] at h
    rw [deleteAll, deleteAll, delete_congr fun i hle hlt => h i hle (by omega),
      deleteAll_congr fun i hle hlt => h i (by omega) (by omega)]

end

/-! ### Leaves with names -/

mutual

/-- The leaves from left to right, each with the names of the composites around it, the outermost
first. -/
def namedLeaves (around : List String) : GateTree α → List (List String × Operation α)
  | .leaf op => [(around, op)]
  | .composite name children => namedLeavesAll (around ++ [name]) children

/-- The leaves of a list of trees with the names of the composites around them. -/
def namedLeavesAll (around : List String) : List (GateTree α) → List (List String × Operation α)
  | [] => []
  | t :: ts => t.namedLeaves around ++ namedLeavesAll around ts

end

mutual

theorem map_snd_namedLeaves : ∀ (around : List String) (t : GateTree α),
    (t.namedLeaves around).map Prod.snd = t.flatten
  | _, .leaf op => rfl
  | around, .composite name children => by
    rw [namedLeaves, flatten, map_snd_namedLeavesAll _ children]

theorem map_snd_namedLeavesAll : ∀ (around : List String) (ts : List (GateTree α)),
    (namedLeavesAll around ts).map Prod.snd = flattenAll ts
  | _, [] => rfl
  | around, t :: ts => by
    rw [namedLeavesAll, flattenAll, List.map_append, map_snd_namedLeaves around t,
      map_snd_namedLeavesAll around ts]

end

theorem length_namedLeaves (around : List String) (t : GateTree α) :
    (t.namedLeaves around).length = t.leafCount := by
  rw [← length_flatten, ← map_snd_namedLeaves around, List.length_map]

theorem namedLeavesAll_eq_nil {ts : List (GateTree α)} (h : flattenAll ts = [])
    (around : List String) : namedLeavesAll around ts = [] := by
  rwa [← map_snd_namedLeavesAll around, List.map_eq_nil_iff] at h

theorem namedLeavesAll_append (around : List String) : ∀ ts us : List (GateTree α),
    namedLeavesAll around (ts ++ us) = namedLeavesAll around ts ++ namedLeavesAll around us
  | [], _ => rfl
  | t :: ts, us => by
    rw [List.cons_append, namedLeavesAll, namedLeavesAll, namedLeavesAll_append around ts us,
      List.append_assoc]

mutual

theorem namedLeaves_delete (gone : Finset ℕ) : ∀ (around : List String) (k : ℕ) (t : GateTree α),
    namedLeavesAll around (delete gone k t).toList = survivors gone k (t.namedLeaves around)
  | around, k, .leaf op => by
    rw [delete, namedLeaves, survivors, survivors]
    split <;> rfl
  | around, k, .composite name children => by
    rw [delete, namedLeaves, ← namedLeavesAll_deleteAll gone (around ++ [name]) k children]
    simp [namedLeavesAll, namedLeaves]

/-- **Deleting keeps what survives**, in order and with the names around it. -/
theorem namedLeavesAll_deleteAll (gone : Finset ℕ) : ∀ (around : List String) (k : ℕ)
    (ts : List (GateTree α)), namedLeavesAll around (deleteAll gone k ts) =
      survivors gone k (namedLeavesAll around ts)
  | _, _, [] => rfl
  | around, k, t :: ts => by
    rw [deleteAll, namedLeavesAll_append, namedLeaves_delete gone around k t,
      namedLeavesAll_deleteAll gone around _ ts, namedLeavesAll, survivors_append,
      length_namedLeaves]

end

mutual

theorem namedLeaves_prune : ∀ (around : List String) (t : GateTree α),
    namedLeavesAll around t.prune.toList = t.namedLeaves around
  | _, .leaf op => rfl
  | around, .composite name children => by
    rw [prune, namedLeaves]
    split
    · next h => rw [namedLeavesAll_eq_nil (List.isEmpty_iff.mp h)]; rfl
    · rw [← namedLeavesAll_pruneAll (around ++ [name]) children]
      simp [namedLeavesAll, namedLeaves]

theorem namedLeavesAll_pruneAll : ∀ (around : List String) (ts : List (GateTree α)),
    namedLeavesAll around (pruneAll ts) = namedLeavesAll around ts
  | _, [] => rfl
  | around, t :: ts => by
    rw [pruneAll, namedLeavesAll_append, namedLeaves_prune around t,
      namedLeavesAll_pruneAll around ts, namedLeavesAll]

end

theorem flattenAll_pruneAll (ts : List (GateTree α)) :
    flattenAll (pruneAll ts) = flattenAll ts := by
  rw [← map_snd_namedLeavesAll [], namedLeavesAll_pruneAll, map_snd_namedLeavesAll]

/-! ### Taking out one leaf after the other -/

/-- The second list of trees is what is left of the first one when some leaves with a property are
taken out, and with them the composites that have no leaf. -/
inductive Thins (P : Operation α → Prop) : List (GateTree α) → List (GateTree α) → Prop
  | nil : Thins P [] []
  | keep (op : Operation α) {ts us : List (GateTree α)} (h : Thins P ts us) :
    Thins P (.leaf op :: ts) (.leaf op :: us)
  | take {op : Operation α} (hop : P op) {ts us : List (GateTree α)} (h : Thins P ts us) :
    Thins P (.leaf op :: ts) us
  | shrink (name : String) {inner kept ts us : List (GateTree α)} (hinner : Thins P inner kept)
    (hne : kept ≠ []) (h : Thins P ts us) :
    Thins P (.composite name inner :: ts) (.composite name kept :: us)
  | drop (name : String) {inner ts us : List (GateTree α)} (hinner : Thins P inner [])
    (h : Thins P ts us) : Thins P (.composite name inner :: ts) us

section Thins

variable {P : Operation α → Prop} {ts ts' us us' vs : List (GateTree α)}

theorem Thins.trans (h : Thins P ts us) (h' : Thins P us vs) : Thins P ts vs := by
  induction h generalizing vs with
  | nil => exact h'
  | keep op h ih =>
    cases h' with
    | keep _ h' => exact .keep op (ih h')
    | take hop h' => exact .take hop (ih h')
  | take hop h ih => exact .take hop (ih h')
  | shrink name hinner hne h ihinner ih =>
    cases h' with
    | shrink _ hinner' hne' h' => exact .shrink name (ihinner hinner') hne' (ih h')
    | drop _ hinner' h' => exact .drop name (ihinner hinner') (ih h')
  | drop name hinner h ihinner ih => exact .drop name hinner (ih h')

theorem Thins.append (h : Thins P ts us) (h' : Thins P ts' us') :
    Thins P (ts ++ ts') (us ++ us') := by
  induction h with
  | nil => exact h'
  | keep op h ih => exact .keep op ih
  | take hop h ih => exact .take hop ih
  | shrink name hinner hne h ihinner ih => exact .shrink name hinner hne ih
  | drop name hinner h ihinner ih => exact .drop name hinner ih

theorem Thins.allTrim (h : Thins P ts us) : AllTrim us := by
  induction h with
  | nil => trivial
  | keep op h ih => exact ⟨trivial, ih⟩
  | take hop h ih => exact ih
  | shrink name hinner hne h ihinner ih => exact ⟨⟨hne, ihinner⟩, ih⟩
  | drop name hinner h ihinner ih => exact ih

theorem Thins.refl : ∀ {ts : List (GateTree α)}, AllTrim ts → Thins P ts ts
  | [], _ => .nil
  | .leaf op :: _, h => .keep op (Thins.refl h.2)
  | .composite name _ :: _, h => .shrink name (Thins.refl h.1.2) h.1.1 (Thins.refl h.2)

theorem Thins.composite (name : String) {inner kept : List (GateTree α)} (h : Thins P inner kept) :
    Thins P [.composite name inner]
      (if kept.isEmpty then none else some (GateTree.composite name kept)).toList := by
  split
  · next hempty =>
    rw [List.isEmpty_iff.mp hempty] at h
    exact .drop name h .nil
  · next hne => exact .shrink name h (by simpa using hne) .nil

theorem exists_append_of_getLeaf? {path : LeafPath} {op : Operation α}
    (h : getLeaf? ts path = some op) : ∃ (pre : List (GateTree α)) (t : GateTree α)
      (post : List (GateTree α)) (below : LeafPath), ts = pre ++ t :: post ∧
        path = pre.length :: below ∧ t.leafAt? below = some op := by
  cases path with
  | nil => simp [getLeaf?] at h
  | cons k below =>
    have hk : k < ts.length := by
      by_contra hge
      unfold getLeaf? at h
      rw [List.getElem?_eq_none (by omega)] at h
      cases h
    obtain ⟨pre, t, post, rfl, rfl⟩ : ∃ pre t post, ts = pre ++ t :: post ∧ k = pre.length := by
      refine ⟨ts.take k, ts[k], ts.drop (k + 1), ?_, by simp; omega⟩
      rw [← List.drop_eq_getElem_cons hk, List.take_append_drop]
    rw [getLeaf?_append_cons] at h
    exact ⟨pre, t, post, below, rfl, rfl, h⟩

theorem thins_without {op : Operation α} (hop : P op) : ∀ (t : GateTree α) {below : LeafPath},
    t.IsTrim → t.leafAt? below = some op → Thins P [t] (t.without below).toList
  | .leaf op', [], _, h => by
    obtain rfl := Option.some.inj h
    exact .take hop .nil
  | .leaf _, _ :: _, _, h => nomatch h
  | .composite name children, below, trim, h => by
    rw [leafAt?] at h
    obtain ⟨pre, t, post, below, hsplit, rfl, ht⟩ := exists_append_of_getLeaf? h
    have : sizeOf t < sizeOf children := List.sizeOf_lt_of_mem (by simp [hsplit])
    have hchildren := trim.2
    rw [hsplit, allTrim_append, AllTrim] at hchildren
    have hrest := thins_without hop t hchildren.2.1 ht
    have hkept : Thins P children (eraseLeaf children (pre.length :: below)) := by
      rw [hsplit, eraseLeaf_append_cons pre post ht]
      exact (Thins.refl hchildren.1).append (hrest.append (Thins.refl hchildren.2.2))
    exact hkept.composite name
termination_by t => sizeOf t
decreasing_by simp only [composite.sizeOf_spec]; omega

/-- **Erasing a leaf of trim trees** is taking it out. -/
theorem thins_eraseLeaf {path : LeafPath} {op : Operation α} (hop : P op) (trim : AllTrim ts)
    (h : getLeaf? ts path = some op) : Thins P ts (eraseLeaf ts path) := by
  obtain ⟨pre, t, post, below, rfl, rfl, ht⟩ := exists_append_of_getLeaf? h
  rw [allTrim_append, AllTrim] at trim
  rw [eraseLeaf_append_cons pre post ht]
  exact (Thins.refl trim.1).append ((thins_without hop t trim.2.1 ht).append (Thins.refl trim.2.2))

end Thins

/-! ### One deletion and one pruning -/

/-- The second list of trees is what is left of the first one, numbered from `k` on, without the
leaves with the given numbers and pruned. The numbers are those of leaves with a property. -/
structure IsThinning (P : Operation α → Prop) (k : ℕ) (gone : Finset ℕ)
    (ts us : List (GateTree α)) : Prop where
  eq : us = pruneAll (deleteAll gone k ts)
  leaf : ∀ i ∈ gone, ∃ j op, i = k + j ∧ (flattenAll ts)[j]? = some op ∧ P op

section IsThinning

variable {P : Operation α → Prop} {k : ℕ} {gone gone' : Finset ℕ}
  {ts ts' us us' : List (GateTree α)}

theorem IsThinning.mem_range (h : IsThinning P k gone ts us) {i : ℕ} (hi : i ∈ gone) :
    k ≤ i ∧ i < k + leafCountAll ts := by
  obtain ⟨j, op, rfl, hj, -⟩ := h.leaf i hi
  have hlt := (List.getElem?_eq_some_iff.mp hj).1
  rw [length_flattenAll] at hlt
  omega

theorem IsThinning.append (h : IsThinning P k gone ts us)
    (h' : IsThinning P (k + leafCountAll ts) gone' ts' us') :
    IsThinning P k (gone ∪ gone') (ts ++ ts') (us ++ us') := by
  constructor
  · have hfront : deleteAll (gone ∪ gone') k ts = deleteAll gone k ts := by
      refine deleteAll_congr fun i _ hlt => ?_
      have hnot : i ∉ gone' := fun hi => by have := (h'.mem_range hi).1; omega
      simp [hnot]
    have hback : deleteAll (gone ∪ gone') (k + leafCountAll ts) ts' =
        deleteAll gone' (k + leafCountAll ts) ts' := by
      refine deleteAll_congr fun i hle _ => ?_
      have hnot : i ∉ gone := fun hi => by have := (h.mem_range hi).2; omega
      simp [hnot]
    rw [deleteAll_append, hfront, hback, pruneAll_append, ← h.eq, ← h'.eq]
  · intro i hi
    rw [flattenAll_append]
    rcases Finset.mem_union.mp hi with hi | hi
    · obtain ⟨j, op, rfl, hj, hop⟩ := h.leaf i hi
      have hlt := (List.getElem?_eq_some_iff.mp hj).1
      exact ⟨j, op, rfl, by rw [List.getElem?_append_left hlt, hj], hop⟩
    · obtain ⟨j, op, rfl, hj, hop⟩ := h'.leaf i hi
      refine ⟨leafCountAll ts + j, op, Nat.add_assoc .., ?_, hop⟩
      rw [← length_flattenAll, List.getElem?_append_right (Nat.le_add_right ..),
        Nat.add_sub_cancel_left, hj]

theorem isThinning_leaf (P : Operation α → Prop) (k : ℕ) (op : Operation α) :
    IsThinning P k ∅ [.leaf op] [.leaf op] := by
  refine ⟨?_, by simp⟩
  simp [deleteAll, delete, pruneAll, prune]

theorem isThinning_take {op : Operation α} (hop : P op) (k : ℕ) :
    IsThinning P k {k} [.leaf op] [] := by
  refine ⟨?_, ?_⟩
  · simp [deleteAll, delete, pruneAll]
  · intro i hi
    rw [Finset.mem_singleton] at hi
    exact ⟨0, op, hi, rfl, hop⟩

theorem IsThinning.composite (name : String) (trim : AllTrim us) (h : IsThinning P k gone ts us) :
    IsThinning P k gone [.composite name ts] (if us = [] then [] else [.composite name us]) := by
  have hflat : flattenAll (deleteAll gone k ts) = flattenAll us := by
    rw [h.eq, flattenAll_pruneAll]
  refine ⟨?_, ?_⟩
  · simp only [deleteAll, delete, Option.toList_some, pruneAll, prune, hflat, ← h.eq,
      List.append_nil]
    by_cases hnil : us = []
    · subst hnil
      rfl
    · obtain ⟨t, rest, rfl⟩ := List.exists_cons_of_ne_nil hnil
      have hne : (flattenAll (t :: rest)).isEmpty = false := by
        have := flatten_ne_nil trim.1
        simp [flattenAll, this]
      rw [hne]
      rfl
  · intro i hi
    obtain ⟨j, op, rfl, hj, hop⟩ := h.leaf i hi
    exact ⟨j, op, rfl, by rw [flattenAll, flatten, flattenAll, List.append_nil, hj], hop⟩

end IsThinning

/-- **Taking out leaves one after the other** comes to one deletion and one pruning. -/
theorem Thins.exists_isThinning {P : Operation α → Prop} {ts us : List (GateTree α)}
    (h : Thins P ts us) : ∀ k, ∃ gone, IsThinning P k gone ts us := by
  induction h with
  | nil => exact fun k => ⟨∅, rfl, by simp⟩
  | keep op h ih =>
    intro k
    obtain ⟨gone, hgone⟩ := ih (k + leafCountAll [.leaf op])
    exact ⟨_, (isThinning_leaf P k op).append hgone⟩
  | @take op hop ts us h ih =>
    intro k
    obtain ⟨gone, hgone⟩ := ih (k + leafCountAll [.leaf op])
    exact ⟨_, (isThinning_take hop k).append hgone⟩
  | @shrink name inner kept ts us hinner hne h ihinner ih =>
    intro k
    obtain ⟨gone, hgone⟩ := ihinner k
    obtain ⟨gone', hgone'⟩ := ih (k + leafCountAll [.composite name inner])
    have hone := hgone.composite name hinner.allTrim
    rw [if_neg hne] at hone
    exact ⟨_, hone.append hgone'⟩
  | @drop name inner ts us hinner h ihinner ih =>
    intro k
    obtain ⟨gone, hgone⟩ := ihinner k
    obtain ⟨gone', hgone'⟩ := ih (k + leafCountAll [.composite name inner])
    have hone := hgone.composite name hinner.allTrim
    rw [if_pos rfl] at hone
    exact ⟨_, hone.append hgone'⟩

end GateTree

end StatePrep
