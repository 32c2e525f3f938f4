import Mathlib.Data.List.Basic
import Mathlib.Data.List.InsertIdx
import StatePrep.Proofs.Tree.Leaves
import StatePrep.Tree.Path

/-! # Changing the leaves of a tree

`GateTree.mapLeaves` changes every operation of a tree and keeps everything else: the nesting, the
names, the order. So it commutes with turning a tree around (`reverse_mapLeaves`), a leaf keeps its
address (`outerPath?_mapLeaves`, `getLeaf?_mapLeavesAll`), and erasing a leaf and changing the
others may change places (`eraseLeaf_mapLeavesAll`).

Inversion is a reversal that also inverts every leaf (`inverse_eq_mapLeaves`). What is known of the
two follows from that: `reverse_reverse`, `inverse_reverse`, `inverse_mapLeaves`. -/

namespace StatePrep

variable {α : Type}

namespace GateTree

mutual

/-- The tree with every leaf changed. -/
def mapLeaves (f : Operation α → Operation α) : GateTree α → GateTree α
  | .leaf op => .leaf (f op)
  | .composite name children => .composite name (mapLeavesAll f children)

/-- A list of trees with every leaf changed. -/
def mapLeavesAll (f : Operation α → Operation α) : List (GateTree α) → List (GateTree α)
  | [] => []
  | t :: ts => t.mapLeaves f :: mapLeavesAll f ts

end

variable {f g : Operation α → Operation α}

theorem mapLeavesAll_eq_map (f : Operation α → Operation α) (ts : List (GateTree α)) :
    mapLeavesAll f ts = ts.map (mapLeaves f) := by
  induction ts with
  | nil => rfl
  | cons t ts ih => rw [mapLeavesAll, ih, List.map_cons]

theorem mapLeavesAll_append (f : Operation α → Operation α) (ts us : List (GateTree α)) :
    mapLeavesAll f (ts ++ us) = mapLeavesAll f ts ++ mapLeavesAll f us := by
  rw [mapLeavesAll_eq_map, mapLeavesAll_eq_map, mapLeavesAll_eq_map, List.map_append]

theorem length_mapLeavesAll (f : Operation α → Operation α) (ts : List (GateTree α)) :
    (mapLeavesAll f ts).length = ts.length := by
  rw [mapLeavesAll_eq_map, List.length_map]

theorem getElem?_mapLeavesAll (f : Operation α → Operation α) (ts : List (GateTree α)) (k : ℕ) :
    (mapLeavesAll f ts)[k]? = ts[k]?.map (mapLeaves f) := by
  rw [mapLeavesAll_eq_map, List.getElem?_map]

theorem isEmpty_mapLeavesAll (f : Operation α → Operation α) (ts : List (GateTree α)) :
    (mapLeavesAll f ts).isEmpty = ts.isEmpty := by
  rw [mapLeavesAll_eq_map, List.isEmpty_map]

/-! ### Leaves -/

mutual

theorem flatten_mapLeaves (f : Operation α → Operation α) : ∀ t : GateTree α,
    (t.mapLeaves f).flatten = t.flatten.map f
  | .leaf op => rfl
  | .composite name children => by
    rw [mapLeaves, flatten, flatten, flattenAll_mapLeavesAll f children]

theorem flattenAll_mapLeavesAll (f : Operation α → Operation α) : ∀ ts : List (GateTree α),
    flattenAll (mapLeavesAll f ts) = (flattenAll ts).map f
  | [] => rfl
  | t :: ts => by
    rw [mapLeavesAll, flattenAll, flattenAll, flatten_mapLeaves f t, flattenAll_mapLeavesAll f ts,
      List.map_append]

end

theorem leaves_mapLeaves (f : Operation α → Operation α) (t : GateTree α) :
    (t.mapLeaves f).leaves = t.leaves.map f := by
  rw [leaves_eq_flatten, leaves_eq_flatten, flatten_mapLeaves]

theorem leafCountAll_mapLeavesAll (f : Operation α → Operation α) (ts : List (GateTree α)) :
    leafCountAll (mapLeavesAll f ts) = leafCountAll ts := by
  rw [← length_flattenAll, ← length_flattenAll, flattenAll_mapLeavesAll, List.length_map]

mutual

theorem mapLeaves_mapLeaves (f g : Operation α → Operation α) : ∀ t : GateTree α,
    (t.mapLeaves f).mapLeaves g = t.mapLeaves (g ∘ f)
  | .leaf op => rfl
  | .composite name children => by
    rw [mapLeaves, mapLeaves, mapLeaves, mapLeavesAll_mapLeavesAll f g children]

theorem mapLeavesAll_mapLeavesAll (f g : Operation α → Operation α) : ∀ ts : List (GateTree α),
    mapLeavesAll g (mapLeavesAll f ts) = mapLeavesAll (g ∘ f) ts
  | [] => rfl
  | t :: ts => by
    rw [mapLeavesAll, mapLeavesAll, mapLeavesAll, mapLeaves_mapLeaves f g t,
      mapLeavesAll_mapLeavesAll f g ts]

end

mutual

theorem mapLeaves_id : ∀ t : GateTree α, t.mapLeaves id = t
  | .leaf op => rfl
  | .composite name children => by rw [mapLeaves, mapLeavesAll_id children]

theorem mapLeavesAll_id : ∀ ts : List (GateTree α), mapLeavesAll id ts = ts
  | [] => rfl
  | t :: ts => by rw [mapLeavesAll, mapLeaves_id t, mapLeavesAll_id ts]

end

/-! ### Turning around -/

mutual

theorem reverse_mapLeaves (f : Operation α → Operation α) : ∀ t : GateTree α,
    (t.mapLeaves f).reverse = t.reverse.mapLeaves f
  | .leaf op => rfl
  | .composite name children => by
    rw [mapLeaves, reverse, reverse, mapLeaves, reverseAll_mapLeavesAll f children]

theorem reverseAll_mapLeavesAll (f : Operation α → Operation α) : ∀ ts : List (GateTree α),
    reverseAll (mapLeavesAll f ts) = mapLeavesAll f (reverseAll ts)
  | [] => rfl
  | t :: ts => by
    rw [mapLeavesAll, reverseAll, reverseAll, mapLeavesAll_append, reverseAll_mapLeavesAll f ts,
      reverse_mapLeaves f t, mapLeavesAll, mapLeavesAll]

end

theorem reverseAll_append (ts us : List (GateTree α)) :
    reverseAll (ts ++ us) = reverseAll us ++ reverseAll ts := by
  rw [reverseAll_eq_map, reverseAll_eq_map, reverseAll_eq_map, List.map_append, List.reverse_append]

mutual

theorem reverse_reverse : ∀ t : GateTree α, t.reverse.reverse = t
  | .leaf op => rfl
  | .composite name children => by rw [reverse, reverse, reverseAll_reverseAll children]

theorem reverseAll_reverseAll : ∀ ts : List (GateTree α), reverseAll (reverseAll ts) = ts
  | [] => rfl
  | t :: ts => by
    rw [reverseAll, reverseAll_append, reverseAll_reverseAll ts, reverseAll, reverseAll,
      reverse_reverse t]
    rfl

end

section Inverse

variable [Neg α]

mutual

/-- **Inversion is a reversal that inverts every leaf.** -/
theorem inverse_eq_mapLeaves : ∀ t : GateTree α, t.inverse = t.reverse.mapLeaves Operation.inverse
  | .leaf op => rfl
  | .composite name children => by
    rw [inverse, reverse, mapLeaves, inverseAll_eq_mapLeavesAll children]

theorem inverseAll_eq_mapLeavesAll : ∀ ts : List (GateTree α),
    inverseAll ts = mapLeavesAll Operation.inverse (reverseAll ts)
  | [] => rfl
  | t :: ts => by
    rw [inverseAll, reverseAll, mapLeavesAll_append, inverseAll_eq_mapLeavesAll ts,
      inverse_eq_mapLeaves t, mapLeavesAll, mapLeavesAll]

end

theorem inverse_reverse (t : GateTree α) : t.reverse.inverse = t.inverse.reverse := by
  rw [inverse_eq_mapLeaves, inverse_eq_mapLeaves, reverse_mapLeaves]

theorem inverse_mapLeaves (hf : ∀ op : Operation α, (f op).inverse = f op.inverse)
    (t : GateTree α) : (t.mapLeaves f).inverse = t.inverse.mapLeaves f := by
  have hcomp : Operation.inverse ∘ f = f ∘ Operation.inverse := funext hf
  rw [inverse_eq_mapLeaves, inverse_eq_mapLeaves, reverse_mapLeaves, mapLeaves_mapLeaves,
    mapLeaves_mapLeaves, hcomp]

end Inverse

/-! ### Addresses -/

mutual

theorem outerPath?_mapLeaves (f : Operation α → Operation α) (side : Side) : ∀ t : GateTree α,
    (t.mapLeaves f).outerPath? side = t.outerPath? side
  | .leaf op => rfl
  | .composite name children => by
    rw [mapLeaves, outerPath?, outerPath?, outerPathAll?_mapLeavesAll f side 0 children]

theorem outerPathAll?_mapLeavesAll (f : Operation α → Operation α) (side : Side) :
    ∀ (k : ℕ) (ts : List (GateTree α)),
      outerPathAll? side k (mapLeavesAll f ts) = outerPathAll? side k ts
  | _, [] => rfl
  | k, t :: ts => by
    have head := outerPath?_mapLeaves f side t
    have tail := outerPathAll?_mapLeavesAll f side (k + 1) ts
    cases side <;> simp only [mapLeavesAll, outerPathAll?, head, tail]

end

theorem outerPathAt?_mapLeavesAll (f : Operation α → Operation α) (side : Side)
    (ts : List (GateTree α)) (k : ℕ) :
    outerPathAt? side (mapLeavesAll f ts) k = outerPathAt? side ts k := by
  unfold outerPathAt?
  rw [getElem?_mapLeavesAll]
  cases ts[k]? with
  | none => rfl
  | some t => exact congrArg (Option.map (k :: ·)) (outerPath?_mapLeaves f side t)

theorem getLeaf?_mapLeavesAll (f : Operation α → Operation α) : ∀ (path : LeafPath)
    (ts : List (GateTree α)), getLeaf? (mapLeavesAll f ts) path = (getLeaf? ts path).map f
  | [], _ => rfl
  | k :: below, ts => by
    unfold getLeaf?
    rw [getElem?_mapLeavesAll]
    rcases ts[k]? with _ | (op | ⟨name, children⟩)
    · rfl
    · cases below <;> rfl
    · exact getLeaf?_mapLeavesAll f below children

theorem eraseIdx_mapLeavesAll (f : Operation α → Operation α) (ts : List (GateTree α)) (k : ℕ) :
    (mapLeavesAll f ts).eraseIdx k = mapLeavesAll f (ts.eraseIdx k) := by
  rw [mapLeavesAll_eq_map, mapLeavesAll_eq_map, List.eraseIdx_map]

theorem set_mapLeavesAll (f : Operation α → Operation α) (ts : List (GateTree α)) (k : ℕ)
    (t : GateTree α) :
    (mapLeavesAll f ts).set k (t.mapLeaves f) = mapLeavesAll f (ts.set k t) := by
  rw [mapLeavesAll_eq_map, mapLeavesAll_eq_map, List.map_set]

theorem eraseLeaf_mapLeavesAll (f : Operation α → Operation α) :
    ∀ (path : LeafPath) (ts : List (GateTree α)),
      eraseLeaf (mapLeavesAll f ts) path = mapLeavesAll f (eraseLeaf ts path)
  | [], _ => rfl
  | [k], ts => eraseIdx_mapLeavesAll f ts k
  | k :: l :: below, ts => by
    rw [eraseLeaf, eraseLeaf, getElem?_mapLeavesAll]
    rcases ts[k]? with _ | (op | ⟨name, children⟩)
    · rfl
    · rfl
    · have hkept := eraseLeaf_mapLeavesAll f (l :: below) children
      dsimp only [Option.map, mapLeaves]
      rw [hkept, isEmpty_mapLeavesAll]
      split
      · exact eraseIdx_mapLeavesAll f ts k
      · exact set_mapLeavesAll f ts k (.composite name (eraseLeaf children (l :: below)))

end GateTree

end StatePrep
