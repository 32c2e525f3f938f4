import StatePrep.Proofs.Number.Real
import StatePrep.Proofs.Tree.MapLeaves

/-! # The algebra of turning trees around

`GateTree.inverse` and `GateTree.reverse` turn a tree around: at every level the children are
counted from the other end, which takes an address to its mirror image (`mirrorPath`). The node
there is the one at the address, turned around itself (`node?_reverse`, `node?_inverse`), so it has
the same name and, as a leaf, the same operands (`caption`). Each of the two undoes itself, they may
change places, and together they leave every node where it is and only invert the leaves
(`turning_around`). -/

namespace StatePrep

namespace GateTree

variable {α : Type}

/-! ### Nodes -/

/-- The node at an address, which has the index of a child for each level. -/
def node? : GateTree α → List ℕ → Option (GateTree α)
  | t, [] => some t
  | .leaf _, _ :: _ => none
  | .composite _ children, k :: below => children[k]?.bind fun t => t.node? below

/-- The address with the children counted from the other end at every level. An index out of range
stays as it is. -/
def mirrorPath : GateTree α → List ℕ → List ℕ
  | _, [] => []
  | .leaf _, path => path
  | .composite _ children, k :: below =>
    match children[k]? with
    | some t => (children.length - 1 - k) :: t.mirrorPath below
    | none => k :: below

/-- The name of a node, and its operands if it is a leaf. -/
def caption (t : GateTree α) : String × Option (List Qubit) :=
  (t.name, t.operation?.map Operation.operands)

theorem length_reverseAll (ts : List (GateTree α)) : (reverseAll ts).length = ts.length := by
  rw [reverseAll_eq_map, List.length_reverse, List.length_map]

theorem getElem?_reverseAll {ts : List (GateTree α)} {k : ℕ} {t : GateTree α}
    (h : ts[k]? = some t) : (reverseAll ts)[ts.length - 1 - k]? = some t.reverse := by
  obtain ⟨hk, -⟩ := List.getElem?_eq_some_iff.mp h
  rw [reverseAll_eq_map, List.getElem?_reverse (by rw [List.length_map]; omega), List.length_map,
    Nat.sub_sub_self (Nat.le_sub_one_of_lt hk), List.getElem?_map, h]
  rfl

theorem getElem?_reverseAll_eq_none {ts : List (GateTree α)} {k : ℕ} (h : ts[k]? = none) :
    (reverseAll ts)[k]? = none := by
  rw [List.getElem?_eq_none_iff] at h ⊢
  rwa [length_reverseAll]

/-- **Reversal takes every node to the mirror image of its address** and reverses it. -/
theorem node?_reverse : ∀ (path : List ℕ) (t : GateTree α),
    t.reverse.node? (t.mirrorPath path) = (t.node? path).map reverse
  | [], t => by cases t <;> rfl
  | _ :: _, .leaf _ => rfl
  | k :: below, .composite name children => by
    rw [reverse, mirrorPath, node?]
    cases h : children[k]? with
    | none =>
      dsimp only
      rw [node?, getElem?_reverseAll_eq_none h]
      rfl
    | some t =>
      dsimp only
      rw [node?, getElem?_reverseAll h]
      exact node?_reverse below t

theorem node?_mapLeaves (f : Operation α → Operation α) : ∀ (path : List ℕ) (t : GateTree α),
    (t.mapLeaves f).node? path = (t.node? path).map (mapLeaves f)
  | [], _ => rfl
  | _ :: _, .leaf _ => rfl
  | k :: below, .composite name children => by
    rw [mapLeaves, node?, node?, getElem?_mapLeavesAll]
    cases children[k]? with
    | none => rfl
    | some t => exact node?_mapLeaves f below t

/-- **The mirror image of the mirror image** is the address itself, so every node of a tree turned
around comes from one of the tree. -/
theorem mirrorPath_mirrorPath : ∀ (path : List ℕ) (t : GateTree α),
    t.reverse.mirrorPath (t.mirrorPath path) = path
  | [], t => by cases t <;> rfl
  | _ :: _, .leaf _ => rfl
  | k :: below, .composite name children => by
    rw [reverse, mirrorPath]
    cases h : children[k]? with
    | none =>
      dsimp only
      rw [mirrorPath, getElem?_reverseAll_eq_none h]
    | some t =>
      obtain ⟨hk, -⟩ := List.getElem?_eq_some_iff.mp h
      dsimp only
      rw [mirrorPath, getElem?_reverseAll h]
      dsimp only
      rw [mirrorPath_mirrorPath below t, length_reverseAll,
        Nat.sub_sub_self (Nat.le_sub_one_of_lt hk)]

/-! ### What a node shows -/

theorem caption_reverse (t : GateTree α) : t.reverse.caption = t.caption := by
  cases t <;> rfl

theorem caption_node?_reverse (t : GateTree α) (path : List ℕ) :
    (t.reverse.node? (t.mirrorPath path)).map caption = (t.node? path).map caption := by
  rw [node?_reverse, Option.map_map]
  exact congrArg (Option.map · _) (funext caption_reverse)

section Inverse

variable [Neg α]

theorem caption_inverse (t : GateTree α) : t.inverse.caption = t.caption := by
  cases t with
  | leaf op =>
    obtain ⟨g, qs⟩ := op
    cases g <;> rfl
  | composite name children => rfl

/-- **Inversion takes every node to the mirror image of its address** and inverts it. -/
theorem node?_inverse (t : GateTree α) (path : List ℕ) :
    t.inverse.node? (t.mirrorPath path) = (t.node? path).map inverse := by
  rw [inverse_eq_mapLeaves, node?_mapLeaves, node?_reverse, Option.map_map]
  exact congrArg (Option.map · _) (funext fun u => (inverse_eq_mapLeaves u).symm)

theorem caption_node?_inverse (t : GateTree α) (path : List ℕ) :
    (t.inverse.node? (t.mirrorPath path)).map caption = (t.node? path).map caption := by
  rw [node?_inverse, Option.map_map]
  exact congrArg (Option.map · _) (funext caption_inverse)

theorem inverse_inverse (hneg : ∀ x : α, -(-x) = x) (t : GateTree α) : t.inverse.inverse = t := by
  have hid : Operation.inverse ∘ Operation.inverse = (id : Operation α → Operation α) :=
    funext (Operation.inverse_inverse hneg)
  rw [inverse_eq_mapLeaves t, inverse_eq_mapLeaves, reverse_mapLeaves, reverse_reverse,
    mapLeaves_mapLeaves, hid, mapLeaves_id]

end Inverse

/-- **The algebra of turning trees around.** Reversing twice gives the tree back, and so does
inverting twice if negating a number twice does. The two may change places. Both together keep
every node in its place and invert each leaf. The leaves of a tree turned around are those of the
tree from the other end, inverted in the one case and as they are in the other. Every node keeps its
name and its operands: it goes to the mirror image of its address, which has that address as its own
mirror image. -/
theorem turning_around [Neg α] (t : GateTree α) :
    t.reverse.reverse = t ∧ ((∀ x : α, -(-x) = x) → t.inverse.inverse = t) ∧
      t.reverse.inverse = t.inverse.reverse ∧
      t.reverse.inverse = t.mapLeaves Operation.inverse ∧
      t.inverse.leaves = (t.leaves.map Operation.inverse).reverse ∧
      t.reverse.leaves = t.leaves.reverse ∧
      ∀ path : List ℕ,
        (t.inverse.node? (t.mirrorPath path)).map caption = (t.node? path).map caption ∧
        (t.reverse.node? (t.mirrorPath path)).map caption = (t.node? path).map caption ∧
        t.reverse.mirrorPath (t.mirrorPath path) = path := by
  refine ⟨reverse_reverse t, fun hneg => inverse_inverse hneg t, inverse_reverse t, ?_, ?_, ?_,
    fun path => ⟨caption_node?_inverse t path, caption_node?_reverse t path,
      mirrorPath_mirrorPath path t⟩⟩
  · rw [inverse_eq_mapLeaves, reverse_reverse]
  · rw [leaves_eq_flatten, leaves_eq_flatten, flatten_inverse]
  · rw [leaves_eq_flatten, leaves_eq_flatten, flatten_reverse]

/-- A tree with the general gate in a composite, behind one without children. -/
theorem turning_around_nested :
    let t : GateTree ℚ := .composite "outer" [.leaf (.rotation .y (1 / 2) ⟨3⟩),
      .composite "empty" [], .composite "inner" [.leaf (.single (.u 1 2 3) ⟨0⟩),
        .leaf (.cx ⟨1⟩ ⟨0⟩)]]
    (∀ x : ℚ, -(-x) = x) ∧ t.inverse.inverse = t ∧
      t.inverse = .composite "outer" [.composite "inner" [.leaf (.cx ⟨1⟩ ⟨0⟩),
        .leaf (.single (.u (-1) (-3) (-2)) ⟨0⟩)], .composite "empty" [],
        .leaf (.rotation .y (-(1 / 2)) ⟨3⟩)] := by
  intro t
  exact ⟨neg_neg, (turning_around t).2.1 neg_neg, rfl⟩

end GateTree

end StatePrep
