import StatePrep.Settings
import StatePrep.Tree.Basic

/-! # Passes

A pass takes leaves out of a composite and says how many. That the count is right is part of what a
pass is, so repeating a pass until it removes nothing comes to an end: every repetition but the last
leaves fewer leaves. -/

namespace StatePrep

/-- A step of simplification, which only removes leaves and counts them. -/
structure Pass (α : Type) where
  name : String
  /-- What is left of a composite and the number of leaves removed from it. -/
  run : Settings α → Composite α → Composite α × Nat
  /-- The leaves removed and the leaves left are those there were. -/
  leafCount_run : ∀ s c, (run s c).1.leafCount + (run s c).2 = c.leafCount

/-- What repeating a pass comes to. -/
structure Repeated (α : Type) where
  /-- The composite that the pass no longer changes the leaves of. -/
  result : Composite α
  /-- The leaves removed by all repetitions together. -/
  removed : Nat
  /-- The number of repetitions, with the last one, which removed nothing. -/
  passes : Nat

namespace Pass

variable {α : Type}

/-- Repeats the pass until it removes nothing. -/
def exhaust (p : Pass α) (s : Settings α) (c : Composite α) : Repeated α :=
  if _h : (p.run s c).2 = 0 then ⟨(p.run s c).1, 0, 1⟩
  else
    let later := p.exhaust s (p.run s c).1
    { later with removed := (p.run s c).2 + later.removed, passes := later.passes + 1 }
termination_by c.leafCount
decreasing_by have := p.leafCount_run s c; omega

end Pass

end StatePrep
