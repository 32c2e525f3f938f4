import Mathlib.Algebra.Module.LinearMap.End
import Mathlib.Analysis.SpecialFunctions.Trigonometric.Basic
import StatePrep.Proofs.Number.Real
import StatePrep.Proofs.State.Scan

/-! # Waves

A wave has a complex amplitude for every index, so it is a state of some number of qubits with
zeros above it, and a gate on given qubits is one linear map of waves whatever the number of qubits
is. Gates in a row are then a product of linear maps, the first one rightmost.

Every map here has the form `mix t stay cross`: the new amplitude at an index is a combination of
the old one there and the old one at the partner in qubit `t`. Such maps for the same `t` multiply
by `mix_mul_mix`, from which the laws of rotations and of controlled flips follow.

* `turn axis t angle`: the rotation of qubit `t` by an angle that may depend on the other qubits;
* `flipWhere c t`: the controlled flip;
* `turn_mul_turn`: angles add up;
* `turn_mul_flipWhere`: about the `y` and the `z` axis a flip turns the angle around. -/

namespace StatePrep

open Complex

/-- An amplitude for every index. -/
abbrev Wave := ℕ → ℂ

/-- The wave of the basis state in which every qubit is zero. -/
def ground : Wave := fun i => if i = 0 then 1 else 0

/-! ### Mixing partners -/

/-- The map that gives each index `stay` times its amplitude and `cross` times its partner's. -/
def mix (t : ℕ) (stay cross : ℕ → ℂ) : Module.End ℂ Wave where
  toFun f i := stay i * f i + cross i * f (partner t i)
  map_add' f g := by
    funext i
    simp only [Pi.add_apply]
    ring
  map_smul' c f := by
    funext i
    simp only [Pi.smul_apply, smul_eq_mul, RingHom.id_apply]
    ring

theorem mix_apply (t : ℕ) (stay cross : ℕ → ℂ) (f : Wave) (i : ℕ) :
    mix t stay cross f i = stay i * f i + cross i * f (partner t i) := rfl

/-- **Maps that mix the same partners multiply** like matrices of two rows. -/
theorem mix_mul_mix (t : ℕ) (stay cross stay' cross' : ℕ → ℂ) :
    mix t stay cross * mix t stay' cross' =
      mix t (fun i => stay i * stay' i + cross i * cross' (partner t i))
        (fun i => stay i * cross' i + cross i * stay' (partner t i)) := by
  refine LinearMap.ext fun f => funext fun i => ?_
  simp only [Module.End.mul_apply, mix_apply, partner_partner]
  ring

theorem mix_const (t : ℕ) (z : ℂ) : mix t (fun _ => z) (fun _ => 0) = z • 1 := by
  refine LinearMap.ext fun f => funext fun i => ?_
  rw [mix_apply, zero_mul, add_zero]
  rfl

theorem mix_one_zero (t : ℕ) : mix t (fun _ => 1) (fun _ => 0) = 1 := by
  rw [mix_const, one_smul]

/-- A function of an index that does not look at bit `t`. -/
def Ignores {β : Type} (t : ℕ) (a : ℕ → β) : Prop := ∀ i, a (partner t i) = a i

theorem ignores_testBit {β : Type} {t q : ℕ} (h : t ≠ q) (f : Bool → β) :
    Ignores t fun i => f (i.testBit q) := by
  intro i
  dsimp only
  rw [testBit_partner_of_ne h]

/-- **Maps commute** if neither of them looks at the qubit that the other one mixes. -/
theorem commute_mix {s t : ℕ} {stay cross stay' cross' : ℕ → ℂ} (hstay : Ignores t stay)
    (hcross : Ignores t cross) (hstay' : Ignores s stay') (hcross' : Ignores s cross') :
    Commute (mix s stay cross) (mix t stay' cross') := by
  refine LinearMap.ext fun f => funext fun i => ?_
  simp only [Module.End.mul_apply, mix_apply, partner_comm s t, hstay i, hcross i, hstay' i,
    hcross' i]
  ring

/-! ### Matrices and rotations -/

/-- What a matrix leaves where it is, for a value of the qubit. -/
def Matrix2.stay (m : Matrix2 ℝ) (b : Bool) : ℂ := if b then m.d.toComplex else m.a.toComplex

/-- What a matrix brings over from the other value of the qubit. -/
def Matrix2.cross (m : Matrix2 ℝ) (b : Bool) : ℂ := if b then m.c.toComplex else m.b.toComplex

/-- A matrix that acts on qubit `t`. -/
def Matrix2.onQubit (m : Matrix2 ℝ) (t : ℕ) : Module.End ℂ Wave :=
  mix t (fun i => m.stay (i.testBit t)) (fun i => m.cross (i.testBit t))

/-- The rotation of qubit `t` about an axis, by an angle that is chosen by the index. -/
noncomputable def turn (axis : Axis) (t : ℕ) (angle : ℕ → ℝ) : Module.End ℂ Wave :=
  mix t (fun i => (axis.matrix (angle i)).stay (i.testBit t))
    (fun i => (axis.matrix (angle i)).cross (i.testBit t))

theorem stay_rz (theta : ℝ) (b : Bool) :
    (Axis.z.matrix theta).stay b = exp ((if b then theta / 2 else -theta / 2 : ℝ) * I) := by
  cases b <;> simp [Axis.matrix, Matrix2.stay, Matrix2.rz, Amplitude.toComplex_polar]

theorem cross_rz (theta : ℝ) (b : Bool) : (Axis.z.matrix theta).cross b = 0 := by
  cases b <;> simp [Axis.matrix, Matrix2.cross, Matrix2.rz]

theorem stay_ry (theta : ℝ) (b : Bool) :
    (Axis.y.matrix theta).stay b = (Real.cos (theta / 2) : ℝ) := by
  cases b <;> simp only [Axis.matrix, Matrix2.stay, Matrix2.ry, half_real] <;> rfl

theorem cross_ry (theta : ℝ) (b : Bool) :
    (Axis.y.matrix theta).cross b =
      (if b then Real.sin (theta / 2) else -Real.sin (theta / 2) : ℝ) := by
  cases b <;> simp only [Axis.matrix, Matrix2.cross, Matrix2.ry, half_real] <;> rfl

theorem stay_rx (theta : ℝ) (b : Bool) :
    (Axis.x.matrix theta).stay b = (Real.cos (theta / 2) : ℝ) := by
  cases b <;> simp only [Axis.matrix, Matrix2.stay, Matrix2.rx, half_real] <;> rfl

theorem cross_rx (theta : ℝ) (b : Bool) :
    (Axis.x.matrix theta).cross b = -((Real.sin (theta / 2) : ℝ) * I) := by
  have entry : ∀ s : ℝ, (⟨0, -s⟩ : ℂ) = -(s * I) := by
    intro s
    apply Complex.ext <;> simp
  rw [← entry]
  cases b <;> simp only [Axis.matrix, Matrix2.cross, Matrix2.rx, half_real] <;> rfl

/-! ### The laws of rotations -/

theorem matrix_zero_stay (axis : Axis) (b : Bool) : (axis.matrix 0).stay b = 1 := by
  cases axis <;> cases b <;> simp [stay_rx, stay_ry, stay_rz]

theorem matrix_zero_cross (axis : Axis) (b : Bool) : (axis.matrix 0).cross b = 0 := by
  cases axis <;> cases b <;> simp [cross_rx, cross_ry, cross_rz]

theorem matrix_add_stay (axis : Axis) (a b : ℝ) (v : Bool) :
    (axis.matrix (a + b)).stay v = (axis.matrix a).stay v * (axis.matrix b).stay v +
      (axis.matrix a).cross v * (axis.matrix b).cross (!v) := by
  cases axis with
  | x =>
    rw [stay_rx, stay_rx, stay_rx, cross_rx, cross_rx, add_div, Real.cos_add]
    push_cast
    linear_combination (-Complex.sin (a / 2) * Complex.sin (b / 2)) * I_sq
  | y =>
    rw [stay_ry, stay_ry, stay_ry, cross_ry, cross_ry, add_div, Real.cos_add]
    cases v <;> simp only [Bool.not_true, Bool.not_false, Bool.false_eq_true, if_true, if_false] <;>
      push_cast <;> ring
  | z =>
    rw [stay_rz, stay_rz, stay_rz, cross_rz, zero_mul, add_zero, ← Complex.exp_add]
    congr 1
    cases v <;> simp only [Bool.false_eq_true, if_true, if_false] <;> push_cast <;> ring

theorem matrix_add_cross (axis : Axis) (a b : ℝ) (v : Bool) :
    (axis.matrix (a + b)).cross v = (axis.matrix a).stay v * (axis.matrix b).cross v +
      (axis.matrix a).cross v * (axis.matrix b).stay (!v) := by
  cases axis with
  | x =>
    rw [cross_rx, cross_rx, cross_rx, stay_rx, stay_rx, add_div, Real.sin_add]
    push_cast
    ring
  | y =>
    rw [cross_ry, cross_ry, cross_ry, stay_ry, stay_ry, add_div, Real.sin_add]
    cases v <;> simp only [Bool.false_eq_true, if_true, if_false] <;> push_cast <;> ring
  | z => rw [cross_rz, cross_rz, cross_rz, mul_zero, zero_mul, add_zero]

/-- About the `y` and the `z` axis the rotation seen from the other value of the qubit is the
opposite one. About the `x` axis it is the same. -/
theorem matrix_neg_stay {axis : Axis} (h : axis ≠ .x) (a : ℝ) (v : Bool) :
    (axis.matrix (-a)).stay v = (axis.matrix a).stay (!v) := by
  cases axis with
  | x => exact absurd rfl h
  | y => rw [stay_ry, stay_ry, neg_div, Real.cos_neg]
  | z => rw [stay_rz, stay_rz]; cases v <;> simp

theorem matrix_neg_cross {axis : Axis} (h : axis ≠ .x) (a : ℝ) (v : Bool) :
    (axis.matrix (-a)).cross v = (axis.matrix a).cross (!v) := by
  cases axis with
  | x => exact absurd rfl h
  | y => rw [cross_ry, cross_ry, neg_div, Real.sin_neg]; cases v <;> simp
  | z => rw [cross_rz, cross_rz]

theorem turn_zero (axis : Axis) (t : ℕ) : turn axis t (fun _ => 0) = 1 := by
  unfold turn
  simp only [matrix_zero_stay, matrix_zero_cross, mix_one_zero]

/-- **Angles add up**, also where they are chosen by other qubits. -/
theorem turn_mul_turn (axis : Axis) (t : ℕ) (a : ℕ → ℝ) {b : ℕ → ℝ} (hb : Ignores t b) :
    turn axis t a * turn axis t b = turn axis t (fun i => a i + b i) := by
  unfold turn
  rw [mix_mul_mix]
  congr 1 <;> funext i <;> rw [testBit_partner_self, hb i]
  · rw [matrix_add_stay]
  · rw [matrix_add_cross]

/-! ### The controlled flip -/

/-- The flip of qubit `t` where qubit `c` is set. A qubit does not control its own flip. -/
def flipWhere (c t : ℕ) : Module.End ℂ Wave :=
  mix t (fun i => if i.testBit c ∧ c ≠ t then 0 else 1)
    (fun i => if i.testBit c ∧ c ≠ t then 1 else 0)

theorem flipWhere_apply (c t : ℕ) (f : Wave) (i : ℕ) :
    flipWhere c t f i = if i.testBit c ∧ c ≠ t then f (partner t i) else f i := by
  unfold flipWhere
  rw [mix_apply]
  split <;> simp

theorem flipWhere_self (t : ℕ) : flipWhere t t = 1 := by
  refine LinearMap.ext fun f => funext fun i => ?_
  rw [flipWhere_apply, if_neg (by simp)]
  rfl

theorem flipWhere_mul_flipWhere (c t : ℕ) : flipWhere c t * flipWhere c t = 1 := by
  by_cases h : c = t
  · rw [h, flipWhere_self, one_mul]
  · refine LinearMap.ext fun f => funext fun i => ?_
    have hbit := testBit_partner_of_ne (Ne.symm h) i
    rw [Module.End.mul_apply, flipWhere_apply, flipWhere_apply, flipWhere_apply, partner_partner,
      hbit]
    split <;> rfl

theorem ignores_target (c t : ℕ) (z z' : ℂ) :
    Ignores t fun i => if i.testBit c ∧ c ≠ t then z else z' := by
  by_cases h : c = t
  · intro i
    simp [h]
  · exact ignores_testBit (Ne.symm h) fun b => if b ∧ c ≠ t then z else z'

theorem commute_flipWhere (c c' t : ℕ) : Commute (flipWhere c t) (flipWhere c' t) :=
  commute_mix (ignores_target c t 0 1) (ignores_target c t 1 0) (ignores_target c' t 0 1)
    (ignores_target c' t 1 0)

/-- **About the `x` axis** a rotation and a flip of its target commute. -/
theorem commute_turn_x_flipWhere {c t : ℕ} {a : ℕ → ℝ} (ha : Ignores t a) :
    Commute (turn .x t a) (flipWhere c t) := by
  unfold turn
  simp only [stay_rx, cross_rx]
  refine commute_mix (fun i => ?_) (fun i => ?_) (ignores_target c t 0 1) (ignores_target c t 1 0)
  · rw [ha i]
  · rw [ha i]

/-- The angle where a qubit is zero, the opposite angle where it is set. -/
def signedBy (c : ℕ) (a : ℕ → ℝ) : ℕ → ℝ := fun i => if i.testBit c then -a i else a i

theorem Ignores.signedBy {c t : ℕ} (h : c ≠ t) {a : ℕ → ℝ} (ha : Ignores t a) :
    Ignores t (signedBy c a) := by
  intro i
  unfold StatePrep.signedBy
  rw [testBit_partner_of_ne (Ne.symm h), ha i]

/-- **A flip turns the angle around** where it takes place. -/
theorem turn_mul_flipWhere {axis : Axis} (haxis : axis ≠ .x) {c t : ℕ} (h : c ≠ t) {a : ℕ → ℝ}
    (ha : Ignores t a) :
    turn axis t a * flipWhere c t = flipWhere c t * turn axis t (signedBy c a) := by
  refine LinearMap.ext fun f => funext fun i => ?_
  have hbit := testBit_partner_of_ne (Ne.symm h) i
  rw [Module.End.mul_apply, Module.End.mul_apply, turn, turn, mix_apply, flipWhere_apply,
    flipWhere_apply, flipWhere_apply, mix_apply, mix_apply, hbit, partner_partner,
    testBit_partner_self]
  unfold signedBy
  rw [hbit, ha i]
  cases hc : i.testBit c
  · simp [h]
  · simp only [h, if_true, ne_eq, not_false_eq_true, and_self, matrix_neg_stay haxis,
      matrix_neg_cross haxis, Bool.not_not]

end StatePrep
