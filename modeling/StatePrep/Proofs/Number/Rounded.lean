import Mathlib.Algebra.Order.Field.Basic
import StatePrep.Proofs.Number.Real

/-! # Rounded numbers as scalars

Real numbers of which every result is rounded, in any way that keeps the order of numbers and the
numbers zero and one (`Rounding`). Rounding to the nearest float is one, as long as no result is too
large, and leaving every number as it is is another. -/

namespace StatePrep

/-- A way of rounding that keeps order, zero and one. -/
structure Rounding where
  round : ℝ → ℝ
  monotone : Monotone round
  round_zero : round 0 = 0
  round_one : round 1 = 1

namespace Rounding

/-- The rounding that leaves every number as it is. -/
def exact : Rounding := ⟨id, monotone_id, rfl, rfl⟩

instance : Inhabited Rounding := ⟨exact⟩

variable (r : Rounding)

theorem round_nonneg {x : ℝ} (h : 0 ≤ x) : 0 ≤ r.round x := r.round_zero ▸ r.monotone h

theorem round_le_one {x : ℝ} (h : x ≤ 1) : r.round x ≤ 1 := r.round_one ▸ r.monotone h

theorem one_le_round {x : ℝ} (h : 1 ≤ x) : 1 ≤ r.round x := r.round_one ▸ r.monotone h

end Rounding

/-- A real number in an arithmetic that rounds every result. -/
structure Rounded (r : Rounding) where
  value : ℝ

noncomputable instance (r : Rounding) : Scalar (Rounded r) where
  zero := ⟨0⟩
  one := ⟨1⟩
  add x y := ⟨r.round (x.value + y.value)⟩
  sub x y := ⟨r.round (x.value - y.value)⟩
  mul x y := ⟨r.round (x.value * y.value)⟩
  div x y := ⟨r.round (x.value / y.value)⟩
  neg x := ⟨-x.value⟩
  natCast n := ⟨r.round n⟩
  intCast n := ⟨r.round n⟩
  lt x y := x.value < y.value
  le x y := x.value ≤ y.value
  beq x y := decide (x.value = y.value)
  decLT x y := inferInstanceAs (Decidable (x.value < y.value))
  decLE x y := inferInstanceAs (Decidable (x.value ≤ y.value))
  abs x := ⟨|x.value|⟩
  isFinite _ := true

/-- **The ratio of two counts** is between zero and one however it is rounded, if the first count is
at most the second. -/
theorem value_div_mem_Icc (r : Rounding) {k m : ℕ} (hkm : k ≤ m) (hm : m ≠ 0) :
    ((k : Rounded r) / (m : Rounded r)).value ∈ Set.Icc (0 : ℝ) 1 := by
  have hnum : 0 ≤ r.round k := r.round_nonneg (Nat.cast_nonneg k)
  have hle : r.round k ≤ r.round m := r.monotone (Nat.cast_le.mpr hkm)
  have hden : 0 < r.round m :=
    one_pos.trans_le (r.one_le_round (Nat.one_le_cast.mpr (Nat.one_le_iff_ne_zero.mpr hm)))
  exact ⟨r.round_nonneg (div_nonneg hnum hden.le), r.round_le_one ((div_le_one hden).mpr hle)⟩

end StatePrep
