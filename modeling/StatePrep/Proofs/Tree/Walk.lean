import Mathlib.Data.List.Basic
import StatePrep.Proofs.Tree.Leaves

/-! # A walk, turn by turn

A cursor proceeds in turns: it leaves a list of siblings that has come to its end, enters a
composite, or meets a leaf (`Cursor.turn?`). `Cursor.next?` turns until it meets a leaf
(`exists_walk_next?`), however many composites without leaves lie on the way.

Two quantities of a place tell how a walk goes on. Every turn takes one off `turnsLeft`, so a walk
comes to its end. And a turn moves a leaf from `ahead`, which is what is pending, flattened, to the
leaves met, or leaves both as they are, so in the end all leaves have been met in order
(`walk_spec`, `walk_eq_end_iff`). What calls of `next?` give one after the other is told by `Yields`
(`exists_yields_iff`). -/

namespace StatePrep

variable {α : Type}

namespace GateTree

mutual

/-- The turns it takes to pass a tree: one for a leaf, and two to enter a composite and to leave
it. -/
def turnCount : GateTree α → ℕ
  | .leaf _ => 1
  | .composite _ children => turnCountAll children + 2

/-- The turns it takes to pass each of a list of trees. -/
def turnCountAll : List (GateTree α) → ℕ
  | [] => 0
  | t :: ts => t.turnCount + turnCountAll ts

end

end GateTree

namespace Cursor

/-! ### Turns -/

/-- One turn, if anything is pending: the leaf it meets, if any, and the place behind it. -/
def turn? : Cursor α → Option (Option (Operation α) × Cursor α)
  | ⟨[]⟩ => none
  | ⟨[] :: outer⟩ => some (none, ⟨outer⟩)
  | ⟨(.leaf op :: siblings) :: outer⟩ => some (some op, ⟨siblings :: outer⟩)
  | ⟨(.composite _ children :: siblings) :: outer⟩ => some (none, ⟨children :: siblings :: outer⟩)

/-- The leaves met in so many turns, in order, and the place they lead to. At its end a walk stays
where it is. -/
def walk : ℕ → Cursor α → List (Operation α) × Cursor α
  | 0, c => ([], c)
  | k + 1, c =>
    match c.turn? with
    | none => ([], c)
    | some (met, d) => (met.toList ++ (walk k d).1, (walk k d).2)

/-- The leaves that are still to be met. -/
def ahead (c : Cursor α) : List (Operation α) := c.pending.flatMap GateTree.flattenAll

/-- The turns it takes to the end of the walk: each list of siblings is passed and left. -/
def turnsLeft (c : Cursor α) : ℕ :=
  c.pending.foldr (fun ts k => GateTree.turnCountAll ts + 1 + k) 0

theorem ahead_start (t : GateTree α) : (start t).ahead = t.flatten := by
  simp [ahead, start, GateTree.flattenAll]

theorem turnsLeft_start (t : GateTree α) : (start t).turnsLeft = t.turnCount + 1 := by
  simp [turnsLeft, start, GateTree.turnCountAll]

theorem turnsLeft_eq_zero_iff {c : Cursor α} : c.turnsLeft = 0 ↔ c = ⟨[]⟩ := by
  obtain ⟨pending⟩ := c
  cases pending with
  | nil => simp [turnsLeft]
  | cons ts outer =>
    simp only [turnsLeft, List.foldr_cons, mk.injEq, reduceCtorEq, iff_false]
    omega

theorem turn?_eq_none_iff {c : Cursor α} : c.turn? = none ↔ c = ⟨[]⟩ := by
  constructor
  · intro h
    unfold turn? at h
    split at h
    · rfl
    all_goals cases h
  · rintro rfl
    rfl

/-- **What a turn does**: it takes one off the turns left, and the leaf it meets is the first of
those ahead. -/
theorem turn?_eq_some {c d : Cursor α} {met : Option (Operation α)}
    (h : c.turn? = some (met, d)) :
    d.turnsLeft + 1 = c.turnsLeft ∧ c.ahead = met.toList ++ d.ahead := by
  unfold turn? at h
  split at h
  · cases h
  · next outer =>
    cases h
    refine ⟨?_, rfl⟩
    simp only [turnsLeft, List.foldr_cons, GateTree.turnCountAll]
    omega
  · next op siblings outer =>
    cases h
    refine ⟨?_, rfl⟩
    simp only [turnsLeft, List.foldr_cons, GateTree.turnCountAll, GateTree.turnCount]
    omega
  · next name children siblings outer =>
    cases h
    refine ⟨?_, by simp [ahead, GateTree.flattenAll, GateTree.flatten]⟩
    simp only [turnsLeft, List.foldr_cons, GateTree.turnCountAll, GateTree.turnCount]
    omega

/-! ### Walks -/

theorem walk_end (k : ℕ) : walk k (⟨[]⟩ : Cursor α) = ([], ⟨[]⟩) := by
  cases k <;> rfl

theorem walk_succ_of_turn? {c d : Cursor α} {met : Option (Operation α)}
    (h : c.turn? = some (met, d)) (k : ℕ) :
    walk (k + 1) c = (met.toList ++ (walk k d).1, (walk k d).2) := by
  rw [walk, h]

/-- **What so many turns do**: they are taken off the turns left, and the leaves met are the first
of those ahead. -/
theorem walk_spec : ∀ (k : ℕ) (c : Cursor α),
    (walk k c).2.turnsLeft = c.turnsLeft - k ∧ c.ahead = (walk k c).1 ++ (walk k c).2.ahead
  | 0, _ => ⟨rfl, rfl⟩
  | k + 1, c => by
    cases h : c.turn? with
    | none =>
      obtain rfl := turn?_eq_none_iff.mp h
      rw [walk_end]
      exact ⟨(Nat.zero_sub _).symm, rfl⟩
    | some step =>
      obtain ⟨met, d⟩ := step
      obtain ⟨hleft, hahead⟩ := turn?_eq_some h
      obtain ⟨ihleft, ihahead⟩ := walk_spec k d
      rw [walk_succ_of_turn? h]
      dsimp only
      refine ⟨by omega, ?_⟩
      rw [hahead, ihahead, List.append_assoc]

/-- **A walk ends**, with all the leaves that were ahead, when its turns have been taken, and not
before. -/
theorem walk_eq_end_iff {k : ℕ} {c : Cursor α} :
    walk k c = (c.ahead, ⟨[]⟩) ↔ c.turnsLeft ≤ k := by
  obtain ⟨hleft, hahead⟩ := walk_spec k c
  constructor
  · intro h
    have hzero : (walk k c).2.turnsLeft = 0 := turnsLeft_eq_zero_iff.mpr (congrArg Prod.snd h)
    omega
  · intro h
    have hend : (walk k c).2 = ⟨[]⟩ := turnsLeft_eq_zero_iff.mp (by omega)
    rw [hend] at hahead
    refine Prod.ext ?_ hend
    rw [hahead]
    exact (List.append_nil _).symm

/-! ### Calls -/

theorem next?_eq_of_turn? {c d : Cursor α} {met : Option (Operation α)}
    (h : c.turn? = some (met, d)) :
    c.next? = match met with
      | none => d.next?
      | some op => some (op, d) := by
  unfold turn? at h
  split at h
  · cases h
  all_goals cases h; rw [next?]

/-- **A call of `next?` comes to its end**: after so many turns that meet no leaf, either the next
one meets the leaf that the call gives, or nothing is pending. -/
theorem exists_walk_next? (c : Cursor α) : ∃ k, match c.next? with
    | none => walk k c = ([], ⟨[]⟩)
    | some (op, d) => (walk k c).1 = [] ∧ walk (k + 1) c = ([op], d) := by
  induction hn : c.turnsLeft generalizing c with
  | zero =>
    obtain rfl := turnsLeft_eq_zero_iff.mp hn
    exact ⟨0, by rw [next?]; rfl⟩
  | succ n ih =>
    cases h : c.turn? with
    | none =>
      obtain rfl := turn?_eq_none_iff.mp h
      cases hn
    | some step =>
      obtain ⟨met, d⟩ := step
      have hleft := (turn?_eq_some h).1
      rw [next?_eq_of_turn? h]
      cases met with
      | some op => exact ⟨0, rfl, by rw [walk_succ_of_turn? h]; rfl⟩
      | none =>
        obtain ⟨k, hk⟩ := ih d (by omega)
        refine ⟨k + 1, ?_⟩
        rw [walk_succ_of_turn? h, walk_succ_of_turn? h]
        exact hk

/-- Calls of `next?`, one after the other, give the operations and lead from one place to the
other. -/
inductive Yields : Cursor α → List (Operation α) → Cursor α → Prop
  | nil (c : Cursor α) : Yields c [] c
  | cons {c d e : Cursor α} {op : Operation α} {ops : List (Operation α)}
    (h : c.next? = some (op, d)) (more : Yields d ops e) : Yields c (op :: ops) e

theorem Yields.rest_eq {c d : Cursor α} {ops : List (Operation α)} (h : Yields c ops d) :
    c.rest = ops ++ d.rest := by
  induction h with
  | nil c => rfl
  | @cons c d e op ops h more ih =>
    rw [rest]
    split
    · next hnone => cases hnone.symm.trans h
    · next op' d' hsome =>
      cases hsome.symm.trans h
      rw [ih, List.cons_append]

theorem rest_of_next?_eq_none {c : Cursor α} (h : c.next? = none) : c.rest = [] := by
  rw [rest]
  split
  · rfl
  · next hsome => cases hsome.symm.trans h

theorem exists_yields_rest (c : Cursor α) : ∃ d, Yields c c.rest d ∧ d.next? = none := by
  fun_induction rest c with
  | case1 c h => exact ⟨c, .nil c, h⟩
  | case2 c op d h ih =>
    obtain ⟨e, more, hend⟩ := ih
    exact ⟨e, .cons h more, hend⟩

/-- **Calls until there is nothing more** give the leaves ahead, and nothing else. -/
theorem exists_yields_iff {c : Cursor α} {ops : List (Operation α)} :
    (∃ d, Yields c ops d ∧ d.next? = none) ↔ ops = c.ahead := by
  rw [ahead, ← rest_eq_flatMap]
  constructor
  · rintro ⟨d, h, hend⟩
    rw [h.rest_eq, rest_of_next?_eq_none hend, List.append_nil]
  · rintro rfl
    exact exists_yields_rest c

end Cursor

end StatePrep
