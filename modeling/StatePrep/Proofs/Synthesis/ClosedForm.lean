import Mathlib.Algebra.BigOperators.Field
import Mathlib.Algebra.BigOperators.Intervals
import StatePrep.Proofs.Number.GrayCode
import StatePrep.Proofs.Number.Real
import StatePrep.Proofs.Synthesis.Ladder

/-! # The closed form of a multiplexor

With exact arithmetic the half-sums and half-differences of the levels add up to the Walsh transform
of the angles (`walsh`): each coefficient is the mean of the angles with signs. The first half of a
ladder has the coefficients without the bit of the highest control, the second half, in the turned
order, those with the bit. So the rotations go through the coefficients in the order of the Gray
code, and the flip between two of them is under the control whose bit changes (`ladder_eq_weave`).

`leaves_toTree` gives all leaves of a multiplexor in this form. -/

namespace StatePrep

namespace Multiplexor

/-! ### Two sequences in turn

A ladder has a rotation, a flip, a rotation and so on, and ends in a rotation. -/

section Weave

variable {β : Type} {a a' b b' : ℕ → β} {n : ℕ}

/-- The entries of a first sequence up to `n`, and between them those of a second one. -/
def weave (a b : ℕ → β) (n : ℕ) : List β := ((List.range n).flatMap fun p => [a p, b p]) ++ [a n]

theorem weave_zero (a b : ℕ → β) : weave a b 0 = [a 0] := rfl

theorem weave_succ (a b : ℕ → β) (n : ℕ) : weave a b (n + 1) = weave a b n ++ [b n, a (n + 1)] := by
  unfold weave
  rw [List.range_succ, List.flatMap_append]
  simp

theorem weave_congr (ha : ∀ p ≤ n, a p = a' p) (hb : ∀ p < n, b p = b' p) :
    weave a b n = weave a' b' n := by
  induction n with
  | zero => rw [weave_zero, weave_zero, ha 0 le_rfl]
  | succ n ih =>
    rw [weave_succ, weave_succ, ih (fun p hp => ha p (by omega)) (fun p hp => hb p (by omega)),
      hb n (by omega), ha (n + 1) le_rfl]

theorem weave_add (a b : ℕ → β) (n m : ℕ) :
    weave a b (n + 1 + m) =
      weave a b n ++ b n :: weave (fun p => a (n + 1 + p)) (fun p => b (n + 1 + p)) m := by
  induction m with
  | zero => simp [weave_succ, weave_zero]
  | succ m ih => simp [← Nat.add_assoc, weave_succ, ih]

theorem weave_cons (a b : ℕ → β) (n : ℕ) :
    weave a b (n + 1) = a 0 :: b 0 :: weave (fun p => a (p + 1)) (fun p => b (p + 1)) n := by
  simpa [weave_zero, Nat.add_comm] using weave_add a b 0 n

theorem reverse_weave (a b : ℕ → β) (n : ℕ) :
    (weave a b n).reverse = weave (fun p => a (n - p)) (fun p => b (n - 1 - p)) n := by
  induction n with
  | zero => rfl
  | succ n ih =>
    rw [weave_succ, List.reverse_append, ih, weave_cons]
    refine congrArg (a (n + 1) :: b n :: ·) (weave_congr (fun p _ => ?_) (fun p _ => ?_))
    · exact congrArg a (by omega)
    · exact congrArg b (by omega)

theorem flatMap_range_eq_weave (a b : ℕ → β) (n : ℕ) :
    ((List.range (n + 1)).flatMap fun p => a p :: if p < n then [b p] else []) = weave a b n := by
  have hpairs : ((List.range n).flatMap fun p => a p :: if p < n then [b p] else []) =
      (List.range n).flatMap fun p => [a p, b p] :=
    List.flatMap_congr fun p hp => by rw [if_pos (List.mem_range.mp hp)]
  rw [List.range_succ, List.flatMap_append, hpairs, List.flatMap_singleton,
    if_neg (Nat.lt_irrefl n)]
  rfl

theorem countP_weave {f : β → Bool} {x y : Bool} (ha : ∀ p, f (a p) = x) (hb : ∀ p, f (b p) = y) :
    (weave a b n).countP f = (n + 1) * x.toNat + n * y.toNat := by
  induction n with
  | zero => cases x <;> simp [weave_zero, ha]
  | succ n ih =>
    rw [weave_succ, List.countP_append, ih]
    cases x <;> cases y <;> simp [ha, hb]
    all_goals omega

end Weave

/-! ### The Walsh transform -/

/-- Coefficient `g` of the Walsh transform of `2 ^ k` angles: their mean, with a minus sign where
the index has an odd number of ones in common with `g`. -/
def walsh (k g : ℕ) (angles : List ℚ) : ℚ :=
  (∑ j ∈ Finset.range (2 ^ k), (-1) ^ popcount (j &&& g) * angles.getD j 0) / 2 ^ k

variable {k g p : ℕ} {angles : List ℚ}

theorem half_length (hlen : angles.length = 2 ^ (k + 1)) : angles.length / 2 = 2 ^ k := by
  rw [hlen, Nat.pow_succ]
  omega

theorem getD_halfSums {r : ℕ} (hlen : angles.length = 2 ^ (k + 1)) (hr : r < 2 ^ k) :
    (halfSums angles).getD r 0 = (angles.getD r 0 + angles.getD (2 ^ k + r) 0) / 2 := by
  unfold halfSums
  rw [half_length hlen, getD_zipWith_halves _ (hlen.trans (Nat.pow_succ ..)) hr, half_rat,
    Nat.add_comm r]

theorem getD_halfDifferences {r : ℕ} (hlen : angles.length = 2 ^ (k + 1)) (hr : r < 2 ^ k) :
    (halfDifferences angles).getD r 0 = (angles.getD r 0 - angles.getD (2 ^ k + r) 0) / 2 := by
  unfold halfDifferences
  rw [half_length hlen, getD_zipWith_halves _ (hlen.trans (Nat.pow_succ ..)) hr, half_rat,
    Nat.add_comm r]

theorem walsh_succ (k g : ℕ) (angles : List ℚ) : walsh (k + 1) g angles =
    (∑ j ∈ Finset.range (2 ^ k), ((-1) ^ popcount (j &&& g) * angles.getD j 0 +
      (-1) ^ popcount ((2 ^ k + j) &&& g) * angles.getD (2 ^ k + j) 0) / 2) / 2 ^ k := by
  unfold walsh
  rw [← Finset.sum_div, Finset.sum_add_distrib, pow_succ 2 k, Nat.mul_two, Finset.sum_range_add,
    pow_succ, div_div, mul_comm 2]

theorem walsh_of_lt (hlen : angles.length = 2 ^ (k + 1)) (hg : g < 2 ^ k) :
    walsh (k + 1) g angles = walsh k g (halfSums angles) := by
  rw [walsh_succ, walsh]
  congr 1
  refine Finset.sum_congr rfl fun j hj => ?_
  have hj' := Finset.mem_range.mp hj
  rw [getD_halfSums hlen hj', two_pow_add_and_of_lt hj' hg]
  ring

/-- The coefficients of the second half are those of the half-differences: the bit of the highest
control puts a minus sign before every partner. -/
theorem walsh_two_pow_add (hlen : angles.length = 2 ^ (k + 1)) (hg : g < 2 ^ k) :
    walsh (k + 1) (2 ^ k + g) angles = walsh k g (halfDifferences angles) := by
  rw [walsh_succ, walsh]
  congr 1
  refine Finset.sum_congr rfl fun j hj => ?_
  have hj' := Finset.mem_range.mp hj
  have hand : j &&& g < 2 ^ k := Nat.and_lt_two_pow j hg
  rw [getD_halfDifferences hlen hj', and_two_pow_add_of_lt hj' hg,
    two_pow_add_and_two_pow_add hj' hg, popcount_two_pow_add hand, pow_succ]
  ring

/-! ### The ladder -/

/-- **The rotations of a ladder** are by the coefficients in the order of the Gray code, and between
two of them the flip is under the control whose bit changes. -/
theorem ladder_eq_weave (axis : Axis) (target : Qubit) (control : ℕ → Qubit) (k : ℕ) :
    ∀ angles : List ℚ, angles.length = 2 ^ k →
      ladder axis target ((List.range k).map control).reverse angles =
        weave (fun p => .rotation axis (walsh k (gray p) angles) target)
          (fun p => .cx (control (trailingZeros (p + 1))) target) (2 ^ k - 1) := by
  induction k with
  | zero =>
    intro angles hlen
    obtain ⟨angle, rfl⟩ := List.length_eq_one_iff.mp hlen
    simp [ladder, weave_zero, walsh, gray, popcount]
  | succ k ih =>
    intro angles hlen
    have hpos := Nat.two_pow_pos k
    have hcount : 2 ^ (k + 1) - 1 = 2 ^ k - 1 + 1 + (2 ^ k - 1) := by rw [Nat.pow_succ]; omega
    have hmiddle : 2 ^ k - 1 + 1 = 2 ^ k := by omega
    rw [List.range_succ, List.map_append, List.reverse_append, List.map_singleton,
      List.reverse_singleton, List.singleton_append, ladder,
      ih _ ((length_halfSums angles).trans (half_length hlen)),
      ih _ ((length_halfDifferences angles).trans (half_length hlen)), hcount, weave_add,
      reverse_weave, hmiddle, trailingZeros_two_pow]
    congr 1
    · refine weave_congr (fun p hp => ?_) fun _ _ => rfl
      rw [walsh_of_lt hlen (gray_lt (by omega))]
    · refine congrArg (Operation.cx (control k) target :: ·)
        (weave_congr (fun p hp => ?_) fun p hp => ?_)
      · have hp' : p < 2 ^ k := by omega
        rw [gray_two_pow_add hp', walsh_two_pow_add hlen (gray_lt (by omega))]
      · have hleft : 2 ^ k - 1 - 1 - p + 1 = 2 ^ k - (p + 1) := by omega
        rw [Nat.add_assoc, hleft, trailingZeros_two_pow_add (by omega) (by omega)]

/-! ### All leaves -/

theorem controlsAbove_eq_map {register : List Qubit} (d : Qubit) {bottom k : ℕ}
    (h : bottom + k < register.length) : controlsAbove register bottom k =
      (List.range k).map fun i => register.getD (bottom + 1 + i) d := by
  induction k with
  | zero => rfl
  | succ k ih =>
    have hplace : bottom + 1 + k = bottom + k + 1 := by omega
    have hlt : bottom + k + 1 < register.length := h
    rw [controlsAbove_succ h, List.range_succ, List.map_append, ih (by omega), List.map_singleton,
      hplace, List.getD_eq_getElem _ _ hlt]

theorem exists_toTree_eq_weave (m : Multiplexor) (hlen : angles.length = 2 ^ k) {bottom : ℕ}
    (hfits : bottom + k < m.register.length) :
    ∃ tree, m.toTree bottom angles = .ok tree ∧ tree.leaves =
      weave (fun p => .rotation m.axis (walsh k (gray p) angles) m.register[bottom])
        (fun p => .cx (m.register.getD (bottom + 1 + trailingZeros (p + 1)) m.register[bottom])
          m.register[bottom]) (2 ^ k - 1) ++
        closing m.register bottom k m.register[bottom] := by
  obtain ⟨tree, htree, hleaves⟩ := flatten_ofControls m (by omega) k angles hlen hfits
  refine ⟨tree, ?_, ?_⟩
  · rwa [toTree, hlen, Nat.log2_two_pow]
  · rw [GateTree.leaves_eq_flatten, hleaves, controlsAbove_eq_map m.register[bottom] hfits,
      ladder_eq_weave _ _ _ k angles hlen]

theorem place_lt {register : List Qubit} {bottom : ℕ} (hfits : bottom + k < register.length)
    (h : p + 1 < 2 ^ k) : bottom + 1 + trailingZeros (p + 1) < register.length := by
  have hlt := trailingZeros_lt (by omega) h
  omega

theorem isRotation_rotation {α : Type} (axis : Axis) (theta : α) (q : Qubit) :
    (Operation.rotation axis theta q).gate.isRotation = true := by
  cases axis <;> rfl

theorem isCx_rotation {α : Type} (axis : Axis) (theta : α) (q : Qubit) :
    (Operation.rotation axis theta q).isCx = false := by
  cases axis <;> rfl

/-- **The closed form of a multiplexor** of `2 ^ k` angles over the rationals. Rotation `p` is by
the coefficient whose number is the Gray code of `p`; after it comes the flip under the control
whose bit changes next, and at the end of the outermost multiplexor the flip under the highest
control. So there are `2 ^ k` rotations, and as many flips or one fewer. -/
theorem leaves_toTree (m : Multiplexor) {bottom k : ℕ} {angles : List ℚ}
    (hlen : angles.length = 2 ^ k) (hfits : bottom + k < m.register.length) :
    ∃ tree, m.toTree bottom angles = .ok tree ∧
      tree.leaves =
        ((List.range (2 ^ k)).flatMap fun p =>
          Operation.rotation m.axis (walsh k (p ^^^ (p >>> 1)) angles) m.register[bottom] ::
            if h : p + 1 < 2 ^ k then
              have hplace := place_lt hfits h
              [.cx m.register[bottom + 1 + trailingZeros (p + 1)] m.register[bottom]]
            else []) ++
        (if 1 ≤ k ∧ m.register.length = bottom + k + 1 then
          [.cx m.register[bottom + k] m.register[bottom]]
        else []) ∧
      tree.leaves.countP (fun op => op.gate.isRotation) = 2 ^ k ∧
      tree.leaves.countP Operation.isCx =
        if 1 ≤ k ∧ m.register.length = bottom + k + 1 then 2 ^ k else 2 ^ k - 1 := by
  obtain ⟨tree, htree, hleaves⟩ := exists_toTree_eq_weave m hlen hfits
  have hpos := Nat.two_pow_pos k
  have hclosing : (closing m.register bottom k m.register[bottom] : List (Operation ℚ)) =
      if 1 ≤ k ∧ m.register.length = bottom + k + 1 then
        [.cx m.register[bottom + k] m.register[bottom]] else [] := by
    simp only [closing, List.getD_eq_getElem _ _ hfits, ← Nat.one_le_iff_ne_zero]
  rw [hclosing] at hleaves
  refine ⟨tree, htree, ?_, ?_, ?_⟩
  · rw [hleaves, ← flatMap_range_eq_weave, Nat.sub_add_cancel hpos]
    congr 1
    refine List.flatMap_congr fun p _ => ?_
    congr 1
    by_cases hp : p + 1 < 2 ^ k
    · rw [dif_pos hp, if_pos (by omega), List.getD_eq_getElem _ _ (place_lt hfits hp)]
    · rw [dif_neg hp, if_neg (by omega)]
  · rw [hleaves, List.countP_append, countP_weave (x := true) (y := false)]
    · split <;> simp [Operation.cx, Gate.isRotation, Gate.angle?, Nat.sub_add_cancel hpos]
    · exact fun p => isRotation_rotation _ _ _
    · exact fun p => rfl
  · rw [hleaves, List.countP_append, countP_weave (x := false) (y := true)]
    · split <;> simp [Operation.cx, Operation.isCx, Gate.isCx, Nat.sub_add_cancel hpos]
    · exact fun p => isCx_rotation _ _ _
    · exact fun p => rfl

/-- Two controls above the target, and the closing flip. -/
theorem leaves_toTree_two_controls :
    ∃ tree, (⟨[⟨0⟩, ⟨1⟩, ⟨2⟩], .y⟩ : Multiplexor).toTree 0 [(1 : ℚ), 2, 3, 6] = .ok tree ∧
      tree.leaves = [.rotation .y 3 ⟨0⟩, .cx ⟨1⟩ ⟨0⟩, .rotation .y (-1) ⟨0⟩, .cx ⟨2⟩ ⟨0⟩,
        .rotation .y (1 / 2) ⟨0⟩, .cx ⟨1⟩ ⟨0⟩, .rotation .y (-3 / 2) ⟨0⟩, .cx ⟨2⟩ ⟨0⟩] := by
  have hlen : [(1 : ℚ), 2, 3, 6].length = 2 ^ 2 := rfl
  obtain ⟨tree, htree, hleaves, -, -⟩ :=
    leaves_toTree ⟨[⟨0⟩, ⟨1⟩, ⟨2⟩], .y⟩ hlen (show 0 + 2 < 3 by decide)
  have hshape : tree.leaves = [.rotation .y (walsh 2 0 [1, 2, 3, 6]) ⟨0⟩, .cx ⟨1⟩ ⟨0⟩,
      .rotation .y (walsh 2 1 [1, 2, 3, 6]) ⟨0⟩, .cx ⟨2⟩ ⟨0⟩,
      .rotation .y (walsh 2 3 [1, 2, 3, 6]) ⟨0⟩, .cx ⟨1⟩ ⟨0⟩,
      .rotation .y (walsh 2 2 [1, 2, 3, 6]) ⟨0⟩, .cx ⟨2⟩ ⟨0⟩] := hleaves
  have hwalsh : walsh 2 0 [1, 2, 3, 6] = 3 ∧ walsh 2 1 [1, 2, 3, 6] = -1 ∧
      walsh 2 3 [1, 2, 3, 6] = 1 / 2 ∧ walsh 2 2 [1, 2, 3, 6] = -3 / 2 := by
    decide +kernel
  refine ⟨tree, htree, ?_⟩
  rw [hshape, hwalsh.1, hwalsh.2.1, hwalsh.2.2.1, hwalsh.2.2.2]

end Multiplexor

end StatePrep
