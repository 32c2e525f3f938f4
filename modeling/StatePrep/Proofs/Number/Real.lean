import Mathlib.Algebra.Order.Field.Rat
import Mathlib.Analysis.SpecialFunctions.Complex.Arg
import StatePrep.Gate.Matrix
import StatePrep.Settings

/-! # Real and rational numbers as scalars

The reals are scalars with exact arithmetic, and the functions of analysis are the ones of
mathematics: `hypot` is the length of a vector of the plane and `atan2` its angle in `(-π, π]`. An
amplitude over the reals is a complex number (`Amplitude.toComplex`), and every operation on
amplitudes is the one on complex numbers.

The rationals are scalars with exact arithmetic too, and with them a result can be computed. -/

namespace StatePrep

/-! ### The instances -/

-- Where the reals have an operation of their own, that one is meant.
attribute [instance (low)] Scalar.toZero Scalar.toOne Scalar.toAdd Scalar.toSub Scalar.toMul
  Scalar.toDiv Scalar.toNeg Scalar.toNatCast Scalar.toIntCast Scalar.toLT Scalar.toLE Scalar.toBEq

noncomputable instance : Scalar ℝ where
  decLT := inferInstance
  decLE := inferInstance
  abs x := |x|
  isFinite _ := true

noncomputable instance : Analytic ℝ where
  pi := Real.pi
  sqrt := Real.sqrt
  sin := Real.sin
  cos := Real.cos
  hypot x y := Real.sqrt (x ^ 2 + y ^ 2)
  atan2 y x := Complex.arg ⟨x, y⟩

instance : Scalar ℚ where
  decLT := inferInstance
  decLE := inferInstance
  abs x := |x|
  isFinite _ := true

@[simp] theorem half_real (x : ℝ) : Scalar.half x = x / 2 := by
  change x / (1 + 1) = x / 2
  norm_num

@[simp] theorem half_rat (x : ℚ) : Scalar.half x = x / 2 := by
  change x / (1 + 1) = x / 2
  norm_num

namespace Amplitude

/-- An amplitude over the reals as a complex number. -/
def toComplex (a : Amplitude ℝ) : ℂ := ⟨a.re, a.im⟩

@[simp] theorem re_toComplex (a : Amplitude ℝ) : a.toComplex.re = a.re := rfl

@[simp] theorem im_toComplex (a : Amplitude ℝ) : a.toComplex.im = a.im := rfl

theorem toComplex_injective : Function.Injective toComplex := by
  intro a b h
  obtain ⟨x, y⟩ := a
  obtain ⟨x', y'⟩ := b
  obtain rfl : x = x' := congrArg Complex.re h
  obtain rfl : y = y' := congrArg Complex.im h
  rfl

@[simp] theorem toComplex_zero : (0 : Amplitude ℝ).toComplex = 0 := rfl

@[simp] theorem toComplex_one : (1 : Amplitude ℝ).toComplex = 1 := rfl

@[simp] theorem toComplex_add (a b : Amplitude ℝ) :
    (a + b).toComplex = a.toComplex + b.toComplex := rfl

@[simp] theorem toComplex_mul (a b : Amplitude ℝ) :
    (a * b).toComplex = a.toComplex * b.toComplex := rfl

@[simp] theorem toComplex_neg (a : Amplitude ℝ) : (-a).toComplex = -a.toComplex := rfl

@[simp] theorem toComplex_conj (a : Amplitude ℝ) :
    a.conj.toComplex = (starRingEnd ℂ) a.toComplex := rfl

theorem toComplex_mk_zero (x : ℝ) : (⟨x, 0⟩ : Amplitude ℝ).toComplex = x := rfl

theorem normSq_eq (a : Amplitude ℝ) : a.normSq = ‖a.toComplex‖ ^ 2 :=
  (Complex.sq_norm a.toComplex).symm

theorem norm_eq (a : Amplitude ℝ) : a.norm = ‖a.toComplex‖ := by
  rw [← Real.sqrt_sq (norm_nonneg a.toComplex), Complex.sq_norm, Complex.normSq_apply, ← sq, ← sq]
  rfl

theorem norm_conj (a : Amplitude ℝ) : a.conj.norm = a.norm := by
  rw [norm_eq, norm_eq, toComplex_conj, Complex.norm_conj]

theorem arg_eq (a : Amplitude ℝ) : a.arg = Complex.arg a.toComplex := rfl

theorem toComplex_polar (r t : ℝ) :
    (polar r t).toComplex = r * Complex.exp (t * Complex.I) := by
  apply Complex.ext
  · simp only [re_toComplex, Complex.re_ofReal_mul, Complex.exp_ofReal_mul_I_re]; rfl
  · simp only [im_toComplex, Complex.im_ofReal_mul, Complex.exp_ofReal_mul_I_im]; rfl

theorem weight_eq_sum (amps : List (Amplitude ℝ)) :
    weight amps = (amps.map fun a => ‖a.toComplex‖ ^ 2).sum := by
  have fold : ∀ (amps : List (Amplitude ℝ)) (s : ℝ),
      amps.foldl (fun s a => s + a.normSq) s = s + (amps.map fun a => ‖a.toComplex‖ ^ 2).sum := by
    intro amps
    induction amps with
    | nil => intro s; simp
    | cons a amps ih =>
      intro s
      rw [List.foldl_cons, ih, List.map_cons, List.sum_cons, normSq_eq]
      exact add_assoc _ _ _
  exact (fold amps 0).trans (zero_add _)

end Amplitude

/-! ### Settings -/

namespace Settings

theorem isUsable_iff {s : Settings ℝ} : s.isUsable = true ↔ 0 < s.tolerance := by
  rw [isUsable, Bool.and_eq_true]
  exact ⟨fun h => of_decide_eq_true h.2, fun h => ⟨rfl, decide_eq_true h⟩⟩

theorem agree_iff {s : Settings ℝ} {x y : ℝ} : s.agree x y = true ↔ |x - y| ≤ s.tolerance :=
  decide_eq_true_iff

end Settings

/-! ### Matrices of rotations -/

/-- The matrix of the rotation about an axis. -/
noncomputable def Axis.matrix : Axis → ℝ → Matrix2 ℝ
  | .x, theta => .rx theta
  | .y, theta => .ry theta
  | .z, theta => .rz theta

@[simp] theorem matrix?_rotation (axis : Axis) (theta : ℝ) :
    (axis.rotation theta).matrix? = some (axis.matrix theta) := by
  cases axis <;> rfl

end StatePrep
