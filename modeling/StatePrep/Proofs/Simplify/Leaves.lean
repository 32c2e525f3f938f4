import StatePrep.Proofs.Simplify.CxNormalForm
import StatePrep.Simplify

/-! # The leaves of a simplified composite

Simplification acts on the leaves as on a list: the zero rotations are left out, and what remains is
freely reduced (`flattenAll_simplify`). The rotations reported are the zero rotations there were
(`rotations_simplify`). -/

namespace StatePrep

variable {α : Type}

/-! ### Repeated cancellation -/

theorem flattenAll_exhaust_cxCancellationPass (s : Settings α) (c : Composite α) :
    GateTree.flattenAll (cxCancellationPass.exhaust s c).result.children =
      freeReduce (GateTree.flattenAll c.children) := by
  have once : ∀ c : Composite α, GateTree.flattenAll (cxCancellationPass.run s c).1.children =
      freeReduce (GateTree.flattenAll c.children) :=
    fun c => CxCancellation.flattenAll_cancelAll c.children
  fun_induction Pass.exhaust cxCancellationPass s c with
  | case1 c h => exact once c
  | case2 c h later ih =>
    change GateTree.flattenAll later.result.children = _
    rw [ih, once c, freeReduce_of_isReduced (isReduced_freeReduce _)]

variable [Scalar α]

/-! ### Zero rotations -/

namespace ZeroRotation

mutual

theorem flatten_clear (s : Settings α) : ∀ t : GateTree α,
    GateTree.flattenAll (clear s t).1.toList = t.flatten.filter fun op => !isZeroRotation s op
  | .leaf op => by
    rw [clear]
    split <;> simp_all [GateTree.flattenAll, GateTree.flatten]
  | .composite name children => by
    rw [clear, GateTree.flatten, ← flattenAll_clearAll s children]
    dsimp only
    split
    · next h => rw [List.isEmpty_iff.mp h]; rfl
    · simp [GateTree.flattenAll, GateTree.flatten]

theorem flattenAll_clearAll (s : Settings α) : ∀ ts : List (GateTree α),
    GateTree.flattenAll (clearAll s ts).1 =
      (GateTree.flattenAll ts).filter fun op => !isZeroRotation s op
  | [] => rfl
  | t :: ts => by
    rw [clearAll, GateTree.flattenAll_append, flatten_clear s t, flattenAll_clearAll s ts,
      GateTree.flattenAll, List.filter_append]

end

theorem clearAll_snd (s : Settings α) (ts : List (GateTree α)) :
    (clearAll s ts).2 = (GateTree.flattenAll ts).countP (isZeroRotation s) := by
  have total := leafCount_clearAll s ts
  rw [← GateTree.length_flattenAll, ← GateTree.length_flattenAll, flattenAll_clearAll,
    ← List.countP_eq_length_filter] at total
  have split := List.length_eq_countP_add_countP (isZeroRotation s) (l := GateTree.flattenAll ts)
  simp only [Bool.not_eq_true, Bool.decide_eq_false] at split
  omega

end ZeroRotation

/-! ### Simplification -/

/-- **The leaves of a simplified composite** are the leaves that are no zero rotations, freely
reduced. -/
theorem flattenAll_simplify (s : Settings α) (c : Composite α) :
    GateTree.flattenAll (c.simplify s).1.children = freeReduce
      ((GateTree.flattenAll c.children).filter fun op => !ZeroRotation.isZeroRotation s op) := by
  rw [← ZeroRotation.flattenAll_clearAll]
  exact flattenAll_exhaust_cxCancellationPass s _

theorem name_simplify (s : Settings α) (c : Composite α) : (c.simplify s).1.name = c.name := by
  have name_exhaust : ∀ c : Composite α, (cxCancellationPass.exhaust s c).result.name = c.name := by
    intro c
    fun_induction Pass.exhaust cxCancellationPass s c with
    | case1 c h => rfl
    | case2 c h later ih => exact ih
  exact name_exhaust (zeroRotationPass.run s c).1

theorem flattenAll_simplify_sublist (s : Settings α) (c : Composite α) :
    (GateTree.flattenAll (c.simplify s).1.children).Sublist (GateTree.flattenAll c.children) := by
  rw [flattenAll_simplify]
  exact (freeReduce_sublist _).trans List.filter_sublist

theorem rotations_simplify (s : Settings α) (c : Composite α) :
    (c.simplify s).2.rotations =
      (GateTree.flattenAll c.children).countP (ZeroRotation.isZeroRotation s) :=
  ZeroRotation.clearAll_snd s c.children

end StatePrep
