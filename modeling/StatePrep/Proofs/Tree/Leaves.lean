import StatePrep.Tree.Cursor
import StatePrep.Tree.Order

/-! # The leaves of a tree

The walk of a cursor meets the leaves in the order of `GateTree.flatten` (`leaves_eq_flatten`), so
what is said about leaves can be proved by recursion on the tree. Turning a tree around turns its
list of leaves around (`flatten_inverse`, `flatten_reverse`). -/

namespace StatePrep

variable {α : Type}

theorem Cursor.rest_eq_flatMap (c : Cursor α) :
    c.rest = c.pending.flatMap GateTree.flattenAll := by
  have step : ∀ c : Cursor α, match c.next? with
      | none => c.pending.flatMap GateTree.flattenAll = []
      | some (op, d) => c.pending.flatMap GateTree.flattenAll =
          op :: d.pending.flatMap GateTree.flattenAll := by
    intro c
    fun_induction Cursor.next? c with
    | case1 => rfl
    | case2 outer ih => simpa [GateTree.flattenAll] using ih
    | case3 op siblings outer => simp [GateTree.flattenAll, GateTree.flatten]
    | case4 name children siblings outer ih =>
      simpa [GateTree.flattenAll, GateTree.flatten] using ih
  fun_induction Cursor.rest c with
  | case1 c h =>
    have := step c
    rw [h] at this
    exact this.symm
  | case2 c op d h ih =>
    have := step c
    rw [h] at this
    rw [this, ih]

namespace GateTree

/-- **A walk meets the leaves from left to right.** -/
theorem leaves_eq_flatten (t : GateTree α) : t.leaves = t.flatten := by
  rw [leaves, Cursor.rest_eq_flatMap]
  simp [Cursor.start, flattenAll]

mutual

theorem flatten_inverse [Neg α] : ∀ t : GateTree α,
    t.inverse.flatten = (t.flatten.map Operation.inverse).reverse
  | .leaf op => rfl
  | .composite name children => by
    rw [inverse, flatten, flatten, flattenAll_inverseAll children]

theorem flattenAll_inverseAll [Neg α] : ∀ ts : List (GateTree α),
    flattenAll (inverseAll ts) = ((flattenAll ts).map Operation.inverse).reverse
  | [] => rfl
  | t :: ts => by
    rw [inverseAll, flattenAll_append, flattenAll_inverseAll ts, flattenAll, flattenAll, flattenAll,
      flatten_inverse t, List.map_append, List.reverse_append, List.append_nil]

end

mutual

theorem flatten_reverse : ∀ t : GateTree α, t.reverse.flatten = t.flatten.reverse
  | .leaf op => rfl
  | .composite name children => by
    rw [reverse, flatten, flatten, flattenAll_reverseAll children]

theorem flattenAll_reverseAll : ∀ ts : List (GateTree α),
    flattenAll (reverseAll ts) = (flattenAll ts).reverse
  | [] => rfl
  | t :: ts => by
    rw [reverseAll, flattenAll_append, flattenAll_reverseAll ts, flattenAll, flattenAll, flattenAll,
      flatten_reverse t, List.reverse_append, List.append_nil]

end

end GateTree

end StatePrep
