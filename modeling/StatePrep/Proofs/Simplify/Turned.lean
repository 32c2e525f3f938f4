import StatePrep.Proofs.Number.Real
import StatePrep.Proofs.Simplify.Accounting
import StatePrep.Tree.Order

/-! # Simplifying a composite that is turned around

Inversion and reversal turn the sequence of leaves around, and inversion changes each leaf besides
(`TurnedBy`). Simplification does not see that change: an operation and its inverse are zero
rotations together, and they cancel the same operations (`Unseen`). What is left of the leaves is
decided by a filter and by free reduction, which may be read from either end. So a composite can be
simplified first and turned around then, or the other way round (`leaves_simplify_turned`).

The flips left may sit in different composites. Of three equal flips in a row the pass takes the
first two, and these are the last two of the composite turned around. -/

namespace StatePrep

open Operation ZeroRotation

variable {α : Type}

/-! ### Composites that are each other turned around -/

/-- The leaves of the second composite are those of the first one turned around, up to a change. -/
def TurnedBy (f : Operation α → Operation α) (c d : Composite α) : Prop :=
  GateTree.flattenAll d.children = ((GateTree.flattenAll c.children).map f).reverse

theorem turnedBy_reverse (c : Composite α) : TurnedBy id c c.reverse := by
  rw [TurnedBy, List.map_id]
  exact GateTree.flattenAll_reverseAll c.children

theorem turnedBy_inverse [Neg α] (c : Composite α) : TurnedBy Operation.inverse c c.inverse :=
  GateTree.flattenAll_inverseAll c.children

section TurnedBy

variable {f : Operation α → Operation α} {c d : Composite α} (h : TurnedBy f c d)

include h

theorem TurnedBy.leafCount_eq : d.leafCount = c.leafCount := by
  unfold Composite.leafCount
  rw [← GateTree.length_flattenAll, ← GateTree.length_flattenAll, h, List.length_reverse,
    List.length_map]

theorem TurnedBy.leaves_eq : d.toTree.leaves = (c.toTree.leaves.map f).reverse := by
  rw [GateTree.leaves_eq_flatten, GateTree.leaves_eq_flatten]
  exact h

end TurnedBy

/-! ### What simplification does not see -/

theorem isCx_inverse [Neg α] (op : Operation α) : op.inverse.isCx = op.isCx := by
  obtain ⟨g, qs⟩ := op
  cases g <;> rfl

theorem angle?_inverse [Neg α] (g : Gate α) : g.inverse.angle? = g.angle?.map Neg.neg := by
  cases g <;> rfl

variable [Scalar α]

/-- Numbers whose sign is seen neither by the magnitude nor by a comparison with zero. -/
class EvenSign (α : Type) [Scalar α] : Prop where
  abs_neg (x : α) : Scalar.abs (-x) = Scalar.abs x
  neg_beq_zero (x : α) : (-x == 0) = (x == 0)

instance : EvenSign ℚ where
  abs_neg := abs_neg
  neg_beq_zero x := by rw [Bool.eq_iff_iff, beq_iff_eq, beq_iff_eq, neg_eq_zero]

instance : EvenSign ℝ where
  abs_neg := abs_neg
  neg_beq_zero x := by
    change decide (-x = 0) = decide (x = 0)
    rw [decide_eq_decide, neg_eq_zero]

/-- A change of operations that simplification does not see. -/
structure Unseen (s : Settings α) (f : Operation α → Operation α) : Prop where
  cancels (op next : Operation α) : (f op).cancels (f next) = op.cancels next
  isZeroRotation (op : Operation α) : isZeroRotation s (f op) = isZeroRotation s op

theorem unseen_id (s : Settings α) : Unseen s id := ⟨fun _ _ => rfl, fun _ => rfl⟩

/-- **Inversion is not seen**: a flip is its own inverse, and a rotation keeps the magnitude of its
angle. -/
theorem unseen_inverse [EvenSign α] (s : Settings α) : Unseen s Operation.inverse := by
  have hflush : ∀ x : α, (s.flush (-x) == 0) = (s.flush x == 0) := by
    intro x
    unfold Settings.flush
    rw [EvenSign.abs_neg]
    split
    · rfl
    · exact EvenSign.neg_beq_zero x
  refine ⟨fun op next => ?_, fun op => ?_⟩
  · unfold Operation.cancels
    rw [isCx_inverse, isCx_inverse]
    rfl
  · have hangle : op.inverse.gate.angle? = op.gate.angle?.map Neg.neg := angle?_inverse op.gate
    unfold ZeroRotation.isZeroRotation
    rw [hangle]
    cases op.gate.angle? with
    | none => rfl
    | some theta => exact hflush theta

/-! ### Simplification -/

section Simplify

variable {s : Settings α} {f : Operation α → Operation α} {c d : Composite α}

/-- **What is left** of the one is what is left of the other, turned around. -/
theorem TurnedBy.simplify (h : TurnedBy f c d) (hf : Unseen s f) :
    TurnedBy f (c.simplify s).1 (d.simplify s).1 := by
  have hkept : (fun op => !isZeroRotation s op) ∘ f = fun op => !isZeroRotation s op :=
    funext fun op => congrArg (!·) (hf.isZeroRotation op)
  rw [TurnedBy, flattenAll_simplify, flattenAll_simplify, h, List.filter_reverse, List.filter_map,
    hkept, freeReduce_reverse, freeReduce_map hf.cancels]

theorem TurnedBy.rotations_eq (h : TurnedBy f c d) (hf : Unseen s f) :
    (d.simplify s).2.rotations = (c.simplify s).2.rotations := by
  have hzero : isZeroRotation s ∘ f = isZeroRotation s := funext hf.isZeroRotation
  rw [rotations_simplify, rotations_simplify, h, List.countP_reverse, List.countP_map, hzero]

attribute [ext] SimplifyStats

/-- **The numbers reported are the same**: with the leaves before, the leaves after and the
rotations, the pairs and the repetitions are known too. -/
theorem TurnedBy.stats_eq (h : TurnedBy f c d) (hf : Unseen s f) :
    (d.simplify s).2 = (c.simplify s).2 := by
  have hbefore : (d.simplify s).2.before = (c.simplify s).2.before := h.leafCount_eq
  have hafter : (d.simplify s).2.after = (c.simplify s).2.after := (h.simplify hf).leafCount_eq
  have hrotations := h.rotations_eq hf
  have hpairs : (d.simplify s).2.cxPairs = (c.simplify s).2.cxPairs := by
    have hd := before_simplify s d
    have hc := before_simplify s c
    omega
  have hpasses : (d.simplify s).2.passes = (c.simplify s).2.passes := by
    rw [passes_simplify, passes_simplify, hpairs]
  exact SimplifyStats.ext hbefore hafter hrotations hpairs hpasses

end Simplify

/-- **Simplification and turning around may change places.** Reversing a composite and simplifying
it leaves the leaves of the simplified composite reversed, and the numbers reported are the same.
The same holds of inversion, if the sign of a number changes neither its magnitude nor whether it is
zero. -/
theorem leaves_simplify_turned (s : Settings α) (c : Composite α) :
    ((c.reverse.simplify s).1.toTree.leaves = (c.simplify s).1.toTree.reverse.leaves ∧
      (c.reverse.simplify s).2 = (c.simplify s).2) ∧
    (EvenSign α →
      (c.inverse.simplify s).1.toTree.leaves = (c.simplify s).1.toTree.inverse.leaves ∧
        (c.inverse.simplify s).2 = (c.simplify s).2) := by
  have hreverse := turnedBy_reverse c
  have hinverse := turnedBy_inverse c
  refine ⟨⟨?_, hreverse.stats_eq (unseen_id s)⟩, fun hsign =>
    ⟨?_, hinverse.stats_eq (unseen_inverse s)⟩⟩
  · rw [(hreverse.simplify (unseen_id s)).leaves_eq, ← Composite.toTree_reverse,
      (turnedBy_reverse _).leaves_eq]
  · rw [(hinverse.simplify (unseen_inverse s)).leaves_eq, ← Composite.toTree_inverse,
      (turnedBy_inverse _).leaves_eq]

/-- Of three equal flips the pass takes the first two, which hold a small rotation between them. -/
theorem leaves_simplify_turned_three :
    let flip : GateTree ℚ := .leaf (.cx ⟨0⟩ ⟨1⟩)
    let c : Composite ℚ := ⟨"root", [flip, .composite "middle" [.leaf (.rotation .y (1 / 2) ⟨1⟩),
      flip], flip, .leaf (.single (.u 1 2 3) ⟨0⟩)]⟩
    EvenSign ℚ ∧ (c.inverse.simplify ⟨1, true⟩).1.toTree.leaves =
      (c.simplify ⟨1, true⟩).1.toTree.inverse.leaves ∧
        (c.inverse.simplify ⟨1, true⟩).2 = (c.simplify ⟨1, true⟩).2 := by
  intro flip c
  exact ⟨inferInstance, (leaves_simplify_turned ⟨1, true⟩ c).2 inferInstance⟩

end StatePrep
