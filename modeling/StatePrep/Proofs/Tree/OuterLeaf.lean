import Mathlib.Data.List.Basic
import StatePrep.Tree.Path

/-! # The outermost leaf of a tree

`GateTree.outerPath?` searches a tree for its first or its last leaf. The search fails just for a
tree without leaves (`outerPath?_eq_none_iff`). Otherwise `LeadsTo` says all there is to say about
the address it finds (`exists_leadsTo`): the leaf read there is the first or the last of the
flattened tree, and erasing at the address leaves the others.

A tree is *trim* if every composite in it has a child. A trim tree has a leaf, and what erasing
leaves of a trim tree is trim again. -/

namespace StatePrep

variable {α : Type}

/-- The list with one more element on the given side. -/
def Side.attach {β : Type} : Side → β → List β → List β
  | .first, x, xs => x :: xs
  | .last, x, xs => xs ++ [x]

/-- The part of a list, before or behind a place in it, that a search from the given side meets
first. -/
def Side.skipped {β : Type} : Side → List β → List β → List β
  | .first, before, _ => before
  | .last, _, behind => behind

namespace GateTree

/-! ### Trim trees -/

mutual

/-- Every composite in the tree has a child. -/
def IsTrim : GateTree α → Prop
  | .leaf _ => True
  | .composite _ children => children ≠ [] ∧ AllTrim children

/-- Every composite in a list of trees has a child. -/
def AllTrim : List (GateTree α) → Prop
  | [] => True
  | t :: ts => t.IsTrim ∧ AllTrim ts

end

theorem allTrim_iff {ts : List (GateTree α)} : AllTrim ts ↔ ∀ t ∈ ts, t.IsTrim := by
  induction ts with
  | nil => simp [AllTrim]
  | cons t ts ih => rw [AllTrim, ih, List.forall_mem_cons]

theorem allTrim_append {ts us : List (GateTree α)} :
    AllTrim (ts ++ us) ↔ AllTrim ts ∧ AllTrim us := by
  simp only [allTrim_iff, List.forall_mem_append]

theorem flatten_ne_nil : ∀ {t : GateTree α}, t.IsTrim → t.flatten ≠ []
  | .leaf _, _ => by simp [flatten]
  | .composite _ [], h => absurd rfl h.1
  | .composite _ (t :: ts), h => by
    rw [flatten, flattenAll]
    exact List.append_ne_nil_of_left_ne_nil (flatten_ne_nil h.2.1) _

/-! ### One of several siblings -/

/-- The leaf at an address below one tree. -/
def leafAt? : GateTree α → LeafPath → Option (Operation α)
  | .leaf op, [] => some op
  | .leaf _, _ :: _ => none
  | .composite _ children, below => getLeaf? children below

/-- What erasing at an address below a tree leaves of it, if anything. -/
def without : GateTree α → LeafPath → Option (GateTree α)
  | .leaf _, _ => none
  | .composite name children, below =>
    if (eraseLeaf children below).isEmpty then none
    else some (.composite name (eraseLeaf children below))

theorem getLeaf?_append_cons (pre post : List (GateTree α)) (t : GateTree α) (below : LeafPath) :
    getLeaf? (pre ++ t :: post) (pre.length :: below) = t.leafAt? below := by
  conv_lhs => unfold getLeaf?
  rw [List.getElem?_append_right (Nat.le_refl _), Nat.sub_self, List.getElem?_cons_zero]
  cases t <;> cases below <;> rfl

theorem eraseLeaf_append_cons (pre post : List (GateTree α)) {t : GateTree α} {below : LeafPath}
    {op : Operation α} (h : t.leafAt? below = some op) :
    eraseLeaf (pre ++ t :: post) (pre.length :: below) =
      pre ++ ((t.without below).toList ++ post) := by
  have herase : (pre ++ t :: post).eraseIdx pre.length = pre ++ post := by
    rw [List.eraseIdx_append_of_length_le (Nat.le_refl _), Nat.sub_self, List.eraseIdx_cons_zero]
  cases t with
  | leaf op' =>
    cases below with
    | nil => rw [eraseLeaf, herase]; rfl
    | cons k below => simp [leafAt?] at h
  | composite name children =>
    cases below with
    | nil => simp [leafAt?, getLeaf?] at h
    | cons k below =>
      rw [eraseLeaf, List.getElem?_append_right (Nat.le_refl _), Nat.sub_self,
        List.getElem?_cons_zero]
      dsimp only
      rw [without]
      split
      · rw [herase]; rfl
      · rw [List.set_append_right _ _ (Nat.le_refl _), Nat.sub_self, List.set_cons_zero]; rfl

/-! ### The search -/

mutual

/-- **The search fails just for a tree without leaves.** -/
theorem outerPath?_eq_none_iff (side : Side) : ∀ t : GateTree α,
    t.outerPath? side = none ↔ t.flatten = []
  | .leaf op => by simp [outerPath?, flatten]
  | .composite name children => by
    rw [outerPath?, flatten]; exact outerPathAll?_eq_none_iff side 0 children

theorem outerPathAll?_eq_none_iff (side : Side) : ∀ (k : ℕ) (ts : List (GateTree α)),
    outerPathAll? side k ts = none ↔ flattenAll ts = []
  | _, [] => by simp [outerPathAll?, flattenAll]
  | k, t :: ts => by
    have head := outerPath?_eq_none_iff side t
    have tail := outerPathAll?_eq_none_iff side (k + 1) ts
    rw [flattenAll, List.append_eq_nil_iff, ← head, ← tail]
    cases side <;> simp [outerPathAll?, and_comm]

end

/-- An address found among siblings is below one of them, and those that the search has stepped
over have no leaf. -/
theorem exists_append_of_outerPathAll? {side : Side} : ∀ {k : ℕ} {ts : List (GateTree α)}
    {path : LeafPath}, outerPathAll? side k ts = some path →
      ∃ (pre : List (GateTree α)) (t : GateTree α) (post : List (GateTree α)) (below : LeafPath),
        ts = pre ++ t :: post ∧ path = (k + pre.length) :: below ∧
        t.outerPath? side = some below ∧ flattenAll (side.skipped pre post) = []
  | _, [], _, h => by simp [outerPathAll?] at h
  | k, t :: ts, path, h => by
    have here : ∀ below, t.outerPath? side = some below → path = k :: below →
        flattenAll (side.skipped [] ts) = [] →
        ∃ (pre : List (GateTree α)) (t' : GateTree α) (post : List (GateTree α)) (below : LeafPath),
          t :: ts = pre ++ t' :: post ∧ path = (k + pre.length) :: below ∧
          t'.outerPath? side = some below ∧ flattenAll (side.skipped pre post) = [] :=
      fun below hb hp hrest => ⟨[], t, ts, below, rfl, hp, hb, hrest⟩
    have later : outerPathAll? side (k + 1) ts = some path →
        flattenAll (side.skipped [t] []) = [] →
        ∃ (pre : List (GateTree α)) (t' : GateTree α) (post : List (GateTree α)) (below : LeafPath),
          t :: ts = pre ++ t' :: post ∧ path = (k + pre.length) :: below ∧
          t'.outerPath? side = some below ∧ flattenAll (side.skipped pre post) = [] := by
      intro hts ht
      obtain ⟨pre, t', post, below, rfl, rfl, hb, hrest⟩ := exists_append_of_outerPathAll? hts
      refine ⟨t :: pre, t', post, below, rfl, ?_, hb, ?_⟩
      · rw [List.length_cons]; congr 1; omega
      · cases side with
        | first =>
          simp only [Side.skipped, flattenAll, List.append_nil] at ht hrest ⊢
          rw [ht, hrest, List.append_nil]
        | last => exact hrest
    cases side with
    | first =>
      rw [outerPathAll?, Option.or_eq_some_iff] at h
      rcases h with h | ⟨hnone, h⟩
      · obtain ⟨below, hb, rfl⟩ := Option.map_eq_some_iff.mp h
        exact here below hb rfl rfl
      · refine later h ?_
        have := (outerPath?_eq_none_iff _ t).mp (Option.map_eq_none_iff.mp hnone)
        simp [Side.skipped, flattenAll, this]
    | last =>
      rw [outerPathAll?, Option.or_eq_some_iff] at h
      rcases h with h | ⟨hnone, h⟩
      · exact later h rfl
      · obtain ⟨below, hb, rfl⟩ := Option.map_eq_some_iff.mp h
        exact here below hb rfl ((outerPathAll?_eq_none_iff _ _ ts).mp hnone)

/-! ### What the search finds -/

/-- The address `below` leads to the outermost leaf `op` of a tree on the given side, and erasing
there leaves `more`. -/
structure LeadsTo (side : Side) (t : GateTree α) (below : LeafPath) (op : Operation α)
    (more : List (Operation α)) : Prop where
  leaf : t.leafAt? below = some op
  flatten_eq : t.flatten = side.attach op more
  flatten_without : flattenAll (t.without below).toList = more
  trim : t.IsTrim → AllTrim (t.without below).toList

/-- **The search finds the outermost leaf.** -/
theorem exists_leadsTo {side : Side} : ∀ (t : GateTree α) {below : LeafPath},
    t.outerPath? side = some below → ∃ op more, LeadsTo side t below op more
  | .leaf op, below, h => by
    simp only [outerPath?, Option.some.injEq] at h
    subst h
    exact ⟨op, [], rfl, by cases side <;> rfl, rfl, fun _ => trivial⟩
  | .composite name children, below, h => by
    rw [outerPath?] at h
    obtain ⟨pre, t, post, below, hsplit, rfl, hb, hskip⟩ := exists_append_of_outerPathAll? h
    have : sizeOf t < sizeOf children := List.sizeOf_lt_of_mem (by simp [hsplit])
    obtain ⟨op, more, ht⟩ := exists_leadsTo t hb
    subst hsplit
    rw [Nat.zero_add]
    have herase := eraseLeaf_append_cons pre post ht.leaf
    refine ⟨op, flattenAll pre ++ (more ++ flattenAll post), ?_, ?_, ?_, ?_⟩
    · rw [leafAt?, getLeaf?_append_cons, ht.leaf]
    · rw [flatten, flattenAll_append, flattenAll, ht.flatten_eq]
      cases side with
      | first => rw [Side.skipped] at hskip; simp [Side.attach, hskip]
      | last => rw [Side.skipped] at hskip; simp [Side.attach, hskip]
    · rw [without, herase]
      split
      · next hempty =>
        have := congrArg flattenAll (List.isEmpty_iff.mp hempty)
        rw [flattenAll_append, flattenAll_append, ht.flatten_without] at this
        rw [this]; rfl
      · simp [flattenAll, flatten, ht.flatten_without]
    · intro htrim
      have hchildren := htrim.2
      rw [allTrim_append, AllTrim] at hchildren
      rw [without, herase]
      split
      · trivial
      · next hne =>
        refine ⟨⟨by simpa using hne, ?_⟩, trivial⟩
        rw [allTrim_append, allTrim_append]
        exact ⟨hchildren.1, ht.trim hchildren.2.1, hchildren.2.2⟩
termination_by t => sizeOf t
decreasing_by simp only [composite.sizeOf_spec]; omega

end GateTree

end StatePrep
