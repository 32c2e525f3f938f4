import StatePrep.Proofs.Number.Real
import StatePrep.Proofs.Synthesis.Calls
import StatePrep.Proofs.Tree.MapLeaves

/-! # A multiplexor in the turned order

Turning the order of a multiplexor around is the same as inverting the multiplexor of the opposite
angles (`toTree_mirror`), which is why its second part may stand in the turned order. By induction
the two trees have the same parts: the flip undoes itself, the part in the turned order is turned
twice, and what the one rotates by, the other rotates by twice negated.

Of arithmetic this needs only that a sign may be changed before an operation or after it
(`ExactSign`). -/

namespace StatePrep

/-- Numbers whose sign may be changed before an addition, a subtraction or a halving, or after it,
and comes back when it is changed twice. -/
class ExactSign (α : Type) [Scalar α] : Prop where
  neg_neg (x : α) : - -x = x
  neg_add (x y : α) : -(x + y) = -x + -y
  neg_sub (x y : α) : -(x - y) = -x - -y
  half_neg (x : α) : Scalar.half (-x) = -Scalar.half x

instance : ExactSign ℚ where
  neg_neg := neg_neg
  neg_add := neg_add
  neg_sub x y := by rw [neg_sub_neg, neg_sub]
  half_neg x := by rw [half_rat, half_rat, neg_div]

instance : ExactSign ℝ where
  neg_neg := neg_neg
  neg_add := neg_add
  neg_sub x y := by rw [neg_sub_neg, neg_sub]
  half_neg x := by rw [half_real, half_real, neg_div]

namespace Multiplexor

variable {α : Type} [Scalar α] [ExactSign α]

/-! ### Opposite angles -/

omit [ExactSign α] in
theorem zipWith_map_neg {f : α → α → α} (hf : ∀ x y, f (-x) (-y) = -f x y) (l r : List α) :
    List.zipWith f (l.map Neg.neg) (r.map Neg.neg) = (List.zipWith f l r).map Neg.neg := by
  rw [List.zipWith_map, List.map_zipWith]
  simp only [hf]

theorem halfSums_map_neg (angles : List α) :
    halfSums (angles.map Neg.neg) = (halfSums angles).map Neg.neg := by
  unfold halfSums
  dsimp only
  rw [List.length_map, ← List.map_take, ← List.map_drop]
  refine zipWith_map_neg (fun x y => ?_) _ _
  rw [← ExactSign.neg_add, ExactSign.half_neg]

theorem halfDifferences_map_neg (angles : List α) :
    halfDifferences (angles.map Neg.neg) = (halfDifferences angles).map Neg.neg := by
  unfold halfDifferences
  dsimp only
  rw [List.length_map, ← List.map_take, ← List.map_drop]
  refine zipWith_map_neg (fun x y => ?_) _ _
  rw [← ExactSign.neg_sub, ExactSign.half_neg]

/-! ### Turning around -/

theorem ofControls_mirror (m : Multiplexor) (bottom controls : ℕ) :
    ∀ {angles : List α} {t u : GateTree α}, m.ofControls bottom controls angles = .ok t →
      m.ofControls bottom controls (angles.map Neg.neg) = .ok u → t.reverse = u.inverse := by
  induction controls with
  | zero =>
    intro angles t u ht hu
    obtain ⟨angle, target, rfl, htarget, rfl⟩ := exists_of_ofControls_zero ht
    obtain ⟨opposite, target', hopposite, htarget', rfl⟩ := exists_of_ofControls_zero hu
    obtain rfl : -angle = opposite := List.singleton_inj.mp hopposite
    obtain rfl : target = target' := Option.some.inj (htarget.symm.trans htarget')
    rw [GateTree.reverse, GateTree.inverse, Operation.inverse_rotation, ExactSign.neg_neg]
  | succ controls ih =>
    intro angles t u ht hu
    obtain ⟨-, target, control, low, high, htarget, hcontrol, hlow, hhigh, rfl⟩ :=
      exists_of_ofControls_succ ht
    obtain ⟨-, target', control', low', high', htarget', hcontrol', hlow', hhigh', rfl⟩ :=
      exists_of_ofControls_succ hu
    obtain rfl : target = target' := Option.some.inj (htarget.symm.trans htarget')
    obtain rfl : control = control' := Option.some.inj (hcontrol.symm.trans hcontrol')
    rw [halfSums_map_neg] at hlow'
    rw [halfDifferences_map_neg] at hhigh'
    have hfirst : low.reverse = low'.inverse := ih hlow hlow'
    -- the second part is turned once by the construction and once more here
    have hsecond : high.reverse.reverse = high'.reverse.inverse := by
      rw [GateTree.inverse_reverse, ih hhigh hhigh']
    rw [GateTree.reverse, GateTree.inverse, GateTree.reverseAll_eq_map, GateTree.inverseAll_eq_map]
    simp only [List.map_append, List.map_cons, List.map_nil, hfirst, hsecond]
    split <;> rfl

/-- **Reversing the order of a multiplexor inverts the multiplexor of the opposite angles.** Both
are built, and the two trees are equal in names, nesting, operands and angles. -/
theorem toTree_mirror (m : Multiplexor) (bottom k : ℕ) {angles : List α}
    (hangles : angles.length = 2 ^ k) (hfits : bottom + k < m.register.length) :
    ∃ t u, m.toTree bottom angles = .ok t ∧ m.toTree bottom (angles.map Neg.neg) = .ok u ∧
      t.reverse = u.inverse := by
  have hopposite : (angles.map Neg.neg).length = 2 ^ k := by rw [List.length_map, hangles]
  obtain ⟨t, ht⟩ := exists_toTree_iff.mpr (admits_iff.mpr ⟨k, hangles, hfits⟩)
  obtain ⟨u, hu⟩ := exists_toTree_iff.mpr (admits_iff.mpr ⟨k, hopposite, hfits⟩)
  refine ⟨t, u, ht, hu, ?_⟩
  rw [toTree, hangles, Nat.log2_two_pow] at ht
  rw [toTree, hopposite, Nat.log2_two_pow] at hu
  exact ofControls_mirror m bottom k ht hu

/-- A multiplexor with one control inside a register of three qubits, and an outermost one with
two. -/
theorem toTree_mirror_three :
    let m : Multiplexor := ⟨[⟨5⟩, ⟨0⟩, ⟨2⟩], .y⟩
    (∃ t u, m.toTree 1 [(1 : ℚ) / 2, 3] = .ok t ∧ m.toTree 1 [-(1 / 2), -3] = .ok u ∧
      t.reverse = u.inverse) ∧
    ∃ t u, m.toTree 0 [(1 : ℚ), 2, 3, 4] = .ok t ∧ m.toTree 0 [-1, -2, -3, -4] = .ok u ∧
      t.reverse = u.inverse :=
  ⟨toTree_mirror _ 1 1 rfl (by decide), toTree_mirror _ 0 2 rfl (by decide)⟩

end Multiplexor

end StatePrep
