import Mathlib.Data.List.Chain
import StatePrep.Gate.Operation

/-! # Free reduction

Cancelling equal neighbouring flips is free reduction with every `cx` its own inverse. `freeReduce`
reads a list of operations once and keeps what has survived on a stack: an operation that cancels
the one on top removes it, any other is put on top.

* `isReduced_freeReduce`, `freeReduce_of_isReduced`: the results are exactly the lists in which no
  two neighbours cancel.
* `freeReduce_append_cancel`: a cancelling pair anywhere in the list makes no difference. The order
  in which pairs are cancelled therefore makes none either.
* `freeReduce_induction`: what one cancellation keeps, free reduction keeps.
* `freeReduce_filter_freeReduce`: what is no flip may be left out before reducing or after it.
* `freeReduce_map`, `freeReduce_reverse`: renaming operations and reading them from the other end
  make no difference.
* `filter_freeReduce`: what is not a flip stays, in its order. -/

namespace StatePrep

variable {α : Type}

/-! ### Cancelling operations -/

theorem Gate.isCx_iff {g : Gate α} : g.isCx = true ↔ g = .cx := by
  cases g <;> simp [Gate.isCx]

namespace Operation

theorem cancels_iff {op other : Operation α} :
    op.cancels other = true ↔ op.isCx = true ∧ op = other := by
  obtain ⟨g, qs⟩ := op
  obtain ⟨h, rs⟩ := other
  unfold cancels isCx
  constructor
  · intro hc
    simp only [Bool.and_eq_true, beq_iff_eq] at hc
    obtain ⟨⟨hg, hh⟩, rfl⟩ := hc
    rw [Gate.isCx_iff] at hg hh
    exact ⟨Gate.isCx_iff.mpr hg, by rw [hg, hh]⟩
  · rintro ⟨hg, h⟩
    cases h
    simp [hg]

theorem cancels_comm (op other : Operation α) : op.cancels other = other.cancels op := by
  rw [Bool.eq_iff_iff, cancels_iff, cancels_iff]
  constructor <;> rintro ⟨h, rfl⟩ <;> exact ⟨h, rfl⟩

end Operation

open Operation

open scoped List

/-! ### The stack -/

/-- No two neighbours cancel. -/
def IsReduced (ops : List (Operation α)) : Prop :=
  ops.IsChain fun op next => op.cancels next = false

/-- One step of the scan. The survivors so far are on a stack, the last one on top. -/
def pushReduced (stack : List (Operation α)) (op : Operation α) : List (Operation α) :=
  match stack with
  | [] => [op]
  | top :: below => if op.cancels top then below else op :: top :: below

/-- The operations that survive when neighbours that cancel are taken out, read off a stack. -/
def freeReduce (ops : List (Operation α)) : List (Operation α) :=
  (ops.foldl pushReduced []).reverse

theorem pushReduced_cons (top : Operation α) (below : List (Operation α)) (op : Operation α) :
    pushReduced (top :: below) op = if op.cancels top then below else op :: top :: below := rfl

theorem isReduced_reverse {ops : List (Operation α)} : IsReduced ops.reverse ↔ IsReduced ops := by
  unfold IsReduced
  rw [List.isChain_reverse]
  exact List.IsChain.iff fun op next => by rw [cancels_comm]

theorem isReduced_pushReduced {stack : List (Operation α)} (h : IsReduced stack)
    (op : Operation α) : IsReduced (pushReduced stack op) := by
  cases stack with
  | nil => exact List.isChain_singleton op
  | cons top below =>
    rw [pushReduced_cons]
    split
    · exact h.tail
    · next hc => exact List.isChain_cons_cons.mpr ⟨by simpa using hc, h⟩

theorem isReduced_foldl_pushReduced (ops : List (Operation α)) :
    ∀ {stack : List (Operation α)}, IsReduced stack → IsReduced (ops.foldl pushReduced stack) := by
  induction ops with
  | nil => exact fun h => h
  | cons op ops ih => exact fun h => ih (isReduced_pushReduced h op)

/-- **A cancelling pair leaves a reduced stack as it was.** If the first of the two meets its equal
on top, the one below is a different operation and the second is put back in the same place. -/
theorem pushReduced_pushReduced {stack : List (Operation α)} (h : IsReduced stack)
    {op next : Operation α} (hc : op.cancels next = true) :
    pushReduced (pushReduced stack op) next = stack := by
  obtain ⟨hcx, rfl⟩ := cancels_iff.mp hc
  cases stack with
  | nil => simp [pushReduced, hc]
  | cons top below =>
    by_cases htop : op.cancels top = true
    · obtain ⟨-, rfl⟩ := cancels_iff.mp htop
      cases below with
      | nil => simp [pushReduced, hc]
      | cons under rest =>
        have hunder : op.cancels under = false := (List.isChain_cons_cons.mp h).1
        simp [pushReduced_cons, hc, hunder]
    · simp [pushReduced_cons, htop, hc]

/-! ### The reduced list -/

theorem isReduced_freeReduce (ops : List (Operation α)) : IsReduced (freeReduce ops) :=
  isReduced_reverse.mpr (isReduced_foldl_pushReduced ops List.isChain_nil)

theorem foldl_pushReduced_of_isReduced (ops : List (Operation α)) :
    ∀ stack : List (Operation α), IsReduced (stack.reverse ++ ops) →
      ops.foldl pushReduced stack = ops.reverse ++ stack := by
  induction ops with
  | nil => intro stack _; rfl
  | cons op ops ih =>
    intro stack h
    have hpush : pushReduced stack op = op :: stack := by
      cases stack with
      | nil => rfl
      | cons top below =>
        rw [List.reverse_cons, List.append_assoc] at h
        have hc : top.cancels op = false := (List.isChain_append_cons_cons.mp h).2.1
        rw [cancels_comm] at hc
        simp [pushReduced_cons, hc]
    rw [List.foldl_cons, hpush, ih (op :: stack) (by simpa using h), List.reverse_cons,
      List.append_assoc, List.singleton_append]

theorem freeReduce_of_isReduced {ops : List (Operation α)} (h : IsReduced ops) :
    freeReduce ops = ops := by
  rw [freeReduce, foldl_pushReduced_of_isReduced ops [] h, List.append_nil, List.reverse_reverse]

theorem freeReduce_append_cancel (before after : List (Operation α)) {op next : Operation α}
    (hc : op.cancels next = true) :
    freeReduce (before ++ op :: next :: after) = freeReduce (before ++ after) := by
  unfold freeReduce
  rw [List.foldl_append, List.foldl_append, List.foldl_cons, List.foldl_cons,
    pushReduced_pushReduced (isReduced_foldl_pushReduced before List.isChain_nil) hc]

/-- **What one cancellation keeps, free reduction keeps.** The induction is on what is still to be
read, for every stack of survivors before it. -/
theorem freeReduce_induction {P : List (Operation α) → Prop}
    (hcancel : ∀ (before after : List (Operation α)) (op next : Operation α),
      op.cancels next = true → P (before ++ op :: next :: after) → P (before ++ after))
    {ops : List (Operation α)} (h : P ops) : P (freeReduce ops) := by
  have fold : ∀ ops stack : List (Operation α), P (stack.reverse ++ ops) →
      P (ops.foldl pushReduced stack).reverse := by
    intro ops
    induction ops with
    | nil =>
      intro stack h
      rwa [List.append_nil] at h
    | cons op ops ih =>
      intro stack h
      rw [List.foldl_cons]
      cases stack with
      | nil => exact ih [op] h
      | cons top below =>
        rw [List.reverse_cons, List.append_assoc, List.singleton_append] at h
        rw [pushReduced_cons]
        split
        · next hc =>
          rw [cancels_comm] at hc
          exact ih below (hcancel _ _ top op hc h)
        · refine ih (op :: top :: below) ?_
          simpa using h
  exact fold ops [] h

/-- Reading a reduction instead of the list itself leads to the same stack. The induction reads the
list from its end: its last operation is the one that may cancel what the rest has left. -/
theorem foldl_pushReduced_freeReduce {stack : List (Operation α)} (h : IsReduced stack)
    (ops : List (Operation α)) :
    (freeReduce ops).foldl pushReduced stack = ops.foldl pushReduced stack := by
  induction ops using List.reverseRecOn with
  | nil => rfl
  | append_singleton ops op ih =>
    have hlast : freeReduce (ops ++ [op]) =
        (pushReduced (ops.foldl pushReduced []) op).reverse := by
      rw [freeReduce, List.foldl_append, List.foldl_cons, List.foldl_nil]
    rw [hlast, List.foldl_append, List.foldl_cons, List.foldl_nil, ← ih, freeReduce]
    cases ops.foldl pushReduced [] with
    | nil => rfl
    | cons top below =>
      by_cases hc : op.cancels top = true
      · have hbelow := isReduced_foldl_pushReduced below.reverse h
        rw [cancels_comm] at hc
        have := pushReduced_pushReduced hbelow hc
        rw [cancels_comm] at hc
        simpa [pushReduced_cons, hc, List.foldl_append] using this.symm
      · simp [pushReduced_cons, hc, List.foldl_append]

theorem freeReduce_append_congr {before before' after after' : List (Operation α)}
    (h : freeReduce before = freeReduce before') (h' : freeReduce after = freeReduce after') :
    freeReduce (before ++ after) = freeReduce (before' ++ after') := by
  have hstack : before.foldl pushReduced [] = before'.foldl pushReduced [] :=
    List.reverse_injective h
  have hred := isReduced_foldl_pushReduced before' List.isChain_nil
  unfold freeReduce
  rw [List.foldl_append, List.foldl_append, hstack, ← foldl_pushReduced_freeReduce hred after, h',
    foldl_pushReduced_freeReduce hred after']

/-- **Leaving out operations that are no flips** may come before the reduction or between two of
them: the pairs that the first reduction takes out are next to each other without those operations
too. -/
theorem freeReduce_filter_freeReduce {p : Operation α → Bool}
    (hp : ∀ op : Operation α, op.isCx = true → p op = true) (ops : List (Operation α)) :
    freeReduce ((freeReduce ops).filter p) = freeReduce (ops.filter p) := by
  refine freeReduce_induction
    (P := fun reduced => freeReduce (reduced.filter p) = freeReduce (ops.filter p)) ?_ rfl
  intro before after op next hc hreduced
  obtain ⟨hcx, rfl⟩ := cancels_iff.mp hc
  rw [← hreduced, List.filter_append, List.filter_append, List.filter_cons_of_pos (hp op hcx),
    List.filter_cons_of_pos (hp op hcx), freeReduce_append_cancel _ _ hc]

/-! ### Turning around and mapping -/

theorem freeReduce_map {f : Operation α → Operation α}
    (hf : ∀ op next : Operation α, (f op).cancels (f next) = op.cancels next)
    (ops : List (Operation α)) : freeReduce (ops.map f) = (freeReduce ops).map f := by
  have hpush : ∀ (stack : List (Operation α)) (op : Operation α),
      pushReduced (stack.map f) (f op) = (pushReduced stack op).map f := by
    intro stack op
    cases stack with
    | nil => rfl
    | cons top below =>
      rw [List.map_cons, pushReduced_cons, pushReduced_cons, hf]
      split <;> rfl
  have hfold : ∀ ops stack : List (Operation α),
      (ops.map f).foldl pushReduced (stack.map f) = (ops.foldl pushReduced stack).map f := by
    intro ops
    induction ops with
    | nil => exact fun stack => rfl
    | cons op ops ih =>
      intro stack
      rw [List.map_cons, List.foldl_cons, List.foldl_cons, hpush, ih]
  rw [freeReduce, freeReduce, List.map_reverse, ← hfold ops []]
  rfl

/-- **Free reduction from the other end** comes to the same operations, although it may keep
different copies of them. -/
theorem freeReduce_reverse (ops : List (Operation α)) :
    freeReduce ops.reverse = (freeReduce ops).reverse := by
  have hsame : freeReduce (freeReduce ops).reverse = freeReduce ops.reverse := by
    refine freeReduce_induction
      (P := fun reduced => freeReduce reduced.reverse = freeReduce ops.reverse) ?_ rfl
    intro before after op next hc hreduced
    rw [cancels_comm] at hc
    rw [← hreduced, List.reverse_append, List.reverse_append, List.reverse_cons,
      List.reverse_cons, List.append_assoc, List.append_assoc, List.singleton_append,
      List.singleton_append]
    exact (freeReduce_append_cancel _ _ hc).symm
  rw [← hsame]
  exact freeReduce_of_isReduced (isReduced_reverse.mpr (isReduced_freeReduce ops))

/-! ### What survives -/

theorem foldl_pushReduced_sublist (ops : List (Operation α)) : ∀ stack : List (Operation α),
    ops.foldl pushReduced stack <+ ops.reverse ++ stack := by
  induction ops with
  | nil => exact fun stack => List.Sublist.refl _
  | cons op ops ih =>
    intro stack
    have hpush : pushReduced stack op <+ op :: stack := by
      cases stack with
      | nil => exact List.Sublist.refl _
      | cons top below =>
        rw [pushReduced_cons]
        split
        · exact ((List.sublist_cons_self top below).trans (List.sublist_cons_self op _))
        · exact List.Sublist.refl _
    rw [List.foldl_cons, List.reverse_cons, List.append_assoc, List.singleton_append]
    exact (ih _).trans (hpush.append_left _)

theorem freeReduce_sublist (ops : List (Operation α)) : freeReduce ops <+ ops := by
  rw [← List.reverse_sublist, freeReduce, List.reverse_reverse]
  simpa using foldl_pushReduced_sublist ops []

theorem filter_foldl_pushReduced (ops : List (Operation α)) : ∀ stack : List (Operation α),
    (ops.foldl pushReduced stack).filter (fun op => !op.isCx) =
      (ops.filter fun op => !op.isCx).reverse ++ stack.filter fun op => !op.isCx := by
  induction ops with
  | nil => intro stack; rfl
  | cons op ops ih =>
    intro stack
    have hpush : (pushReduced stack op).filter (fun op => !op.isCx) =
        [op].filter (fun op => !op.isCx) ++ stack.filter fun op => !op.isCx := by
      cases stack with
      | nil => simp [pushReduced]
      | cons top below =>
        by_cases hc : op.cancels top = true
        · obtain ⟨hcx, rfl⟩ := cancels_iff.mp hc
          simp [pushReduced_cons, hc, hcx]
        · simp [pushReduced_cons, hc, List.filter_cons]
          split <;> rfl
    rw [List.foldl_cons, ih, hpush]
    cases h : op.isCx <;> simp [h]

/-- **Only flips are taken out**: every other operation stays, and in the same order. -/
theorem filter_freeReduce (ops : List (Operation α)) :
    (freeReduce ops).filter (fun op => !op.isCx) = ops.filter fun op => !op.isCx := by
  rw [freeReduce, List.filter_reverse, filter_foldl_pushReduced, List.filter_nil, List.append_nil,
    List.reverse_reverse]

end StatePrep
