import StatePrep.Proofs.Number.Real
import StatePrep.Proofs.Simplify.Accounting

/-! # Simplifying under a looser tolerance

Settings are looser than others if every magnitude that counts as zero under the others counts as
zero under them (`Settings.Loosens`). Then they take out more rotations, and other flips meet. Still
nothing is lost by simplifying under the tighter settings first: the flips that cancel there are
next to each other also when more rotations are gone, so what the looser settings leave can be found
from what the tighter ones leave (`flattenAll_simplify_simplify`). As simplification only takes
leaves out, looser settings leave no more gates (`length_leaves_simplify_of_loosens`). -/

namespace StatePrep

open ZeroRotation

variable {α : Type} [Scalar α]

/-- Every magnitude below the tolerance of the first settings is below that of the second. -/
def Settings.Loosens (s s' : Settings α) : Prop :=
  ∀ x : α, Scalar.abs x < s.tolerance → Scalar.abs x < s'.tolerance

variable {s s' : Settings α}

theorem isZeroRotation_of_isCx {op : Operation α} (h : op.isCx = true) :
    isZeroRotation s op = false := by
  obtain ⟨g, qs⟩ := op
  obtain rfl := Gate.isCx_iff.mp h
  rfl

/-- **A zero rotation stays one** under looser settings. -/
theorem Settings.Loosens.isZeroRotation (h : s.Loosens s') (hzero : ((0 : α) == 0) = true)
    {op : Operation α} (hop : isZeroRotation s op = true) : isZeroRotation s' op = true := by
  unfold ZeroRotation.isZeroRotation at hop ⊢
  cases hangle : op.gate.angle? with
  | none =>
    rw [hangle] at hop
    cases hop
  | some theta =>
    rw [hangle] at hop
    change (s.flush theta == 0) = true at hop
    change (s'.flush theta == 0) = true
    unfold Settings.flush at hop ⊢
    by_cases hloose : Scalar.abs theta < s'.tolerance
    · rw [if_pos hloose]
      exact hzero
    · rw [if_neg fun htight => hloose (h theta htight)] at hop
      rwa [if_neg hloose]

/-- **Simplifying first under tighter settings** makes no difference to the leaves that are left. -/
theorem flattenAll_simplify_simplify (h : s.Loosens s') (hzero : ((0 : α) == 0) = true)
    (c : Composite α) :
    GateTree.flattenAll ((c.simplify s).1.simplify s').1.children =
      GateTree.flattenAll (c.simplify s').1.children := by
  have hflips : ∀ op : Operation α, op.isCx = true → (!isZeroRotation s' op) = true := by
    intro op hop
    rw [isZeroRotation_of_isCx hop]
    rfl
  have hkept : ∀ op : Operation α, ((!isZeroRotation s' op) && !isZeroRotation s op) =
      !isZeroRotation s' op := by
    intro op
    cases htight : isZeroRotation s op with
    | false => exact Bool.and_true _
    | true => rw [h.isZeroRotation hzero htight]; rfl
  rw [flattenAll_simplify, flattenAll_simplify, freeReduce_filter_freeReduce hflips,
    List.filter_filter, flattenAll_simplify]
  simp only [hkept]

/-- **A looser tolerance never leaves more gates.** If every magnitude below the first tolerance is
below the second, and zero counts as equal to zero, then simplifying with the second leaves at most
the gates that simplifying with the first leaves, as counted and as reported. It leaves the very
gates that it would leave of what the first one leaves. -/
theorem length_leaves_simplify_of_loosens (h : s.Loosens s') (hzero : ((0 : α) == 0) = true)
    (c : Composite α) :
    (c.simplify s').1.toTree.leaves.length ≤ (c.simplify s).1.toTree.leaves.length ∧
      (c.simplify s').2.after ≤ (c.simplify s).2.after ∧
      ((c.simplify s).1.simplify s').1.toTree.leaves = (c.simplify s').1.toTree.leaves := by
  have hleaves : ∀ d : Composite α, d.toTree.leaves = GateTree.flattenAll d.children :=
    fun d => GateTree.leaves_eq_flatten d.toTree
  have hagain := flattenAll_simplify_simplify h hzero c
  have hle : (c.simplify s').1.toTree.leaves.length ≤ (c.simplify s).1.toTree.leaves.length := by
    rw [hleaves, hleaves, ← hagain]
    exact (flattenAll_simplify_sublist s' _).length_le
  refine ⟨hle, ?_, ?_⟩
  · rwa [← leafCount_eq_length_leaves, ← leafCount_eq_length_leaves] at hle
  · rw [hleaves, hleaves, hagain]

/-- A rotation between two equal flips, in a composite of its own, is kept under the tolerance
`1 / 4` with both flips. Under the tolerance `1 / 2` it goes, and the flips after it. -/
theorem length_leaves_simplify_of_loosens_between_flips :
    let flip : GateTree ℚ := .leaf (.cx ⟨0⟩ ⟨1⟩)
    let c : Composite ℚ := ⟨"root", [flip, .composite "middle" [.leaf (.rotation .y (-1 / 3) ⟨1⟩)],
      flip, .leaf (.rotation .z (3 / 4) ⟨1⟩)]⟩
    (0 : ℚ) < 1 / 4 ∧ (1 / 4 : ℚ) ≤ 1 / 2 ∧
      (c.simplify ⟨1 / 2, true⟩).1.toTree.leaves.length ≤
        (c.simplify ⟨1 / 4, true⟩).1.toTree.leaves.length ∧
      (c.simplify ⟨1 / 2, true⟩).2.after ≤ (c.simplify ⟨1 / 4, true⟩).2.after := by
  intro flip c
  have hle : (1 / 4 : ℚ) ≤ 1 / 2 := by norm_num
  have hloosens : (⟨1 / 4, true⟩ : Settings ℚ).Loosens ⟨1 / 2, true⟩ :=
    fun x hx => lt_of_lt_of_le hx hle
  obtain ⟨hleaves, hafter, -⟩ := length_leaves_simplify_of_loosens hloosens (by decide) c
  exact ⟨by norm_num, hle, hleaves, hafter⟩

end StatePrep
