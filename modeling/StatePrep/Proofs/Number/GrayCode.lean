import Mathlib.Data.Nat.Bits
import Mathlib.Data.Nat.Bitwise
import StatePrep.Number.Scalar

/-! # The Gray code

The Gray code of a number is its exclusive or with its own half (`gray`). It is reflected at a power
of two: above `2 ^ k` come the codes from below in the turned order, with bit `k` set
(`gray_two_pow_add`). From one number to the next the code changes in the bit that the zeros at the
end of the next number tell (`trailingZeros`), and these are reflected as well
(`trailingZeros_two_pow_add`).

The ones of a number are counted by `popcount`. -/

namespace StatePrep

variable {k m p j g : ℕ}

/-! ### Counting bits -/

/-- The number of ones of a number in binary. -/
def popcount (n : ℕ) : ℕ := n.bits.count true

/-- The number of zeros that a number ends in, in binary. -/
def trailingZeros (n : ℕ) : ℕ := (n.bits.takeWhile fun b => !b).length

theorem popcount_two_mul (n : ℕ) : popcount (2 * n) = popcount n := by
  rcases Nat.eq_zero_or_pos n with rfl | hpos
  · rfl
  · rw [popcount, Nat.bit0_bits n hpos.ne']
    rfl

theorem popcount_two_mul_add_one (n : ℕ) : popcount (2 * n + 1) = popcount n + 1 := by
  rw [popcount, Nat.bit1_bits, List.count_cons_self]
  rfl

theorem trailingZeros_two_mul {n : ℕ} (h : n ≠ 0) :
    trailingZeros (2 * n) = trailingZeros n + 1 := by
  rw [trailingZeros, Nat.bit0_bits n h]
  rfl

theorem trailingZeros_two_mul_add_one (n : ℕ) : trailingZeros (2 * n + 1) = 0 := by
  rw [trailingZeros, Nat.bit1_bits]
  rfl

theorem popcount_two_pow_add (h : m < 2 ^ k) : popcount (2 ^ k + m) = popcount m + 1 := by
  induction k generalizing m with
  | zero =>
    obtain rfl : m = 0 := by omega
    exact popcount_two_mul_add_one 0
  | succ k ih =>
    rw [Nat.pow_succ] at h ⊢
    obtain ⟨n, rfl | rfl⟩ := Nat.even_or_odd' m
    · have hn : n < 2 ^ k := by omega
      have heq : 2 ^ k * 2 + 2 * n = 2 * (2 ^ k + n) := by omega
      rw [heq, popcount_two_mul, popcount_two_mul, ih hn]
    · have hn : n < 2 ^ k := by omega
      have heq : 2 ^ k * 2 + (2 * n + 1) = 2 * (2 ^ k + n) + 1 := by omega
      rw [heq, popcount_two_mul_add_one, popcount_two_mul_add_one, ih hn]

theorem trailingZeros_two_pow (k : ℕ) : trailingZeros (2 ^ k) = k := by
  induction k with
  | zero => exact trailingZeros_two_mul_add_one 0
  | succ k ih => rw [Nat.pow_succ, Nat.mul_comm, trailingZeros_two_mul (Nat.two_pow_pos k).ne', ih]

theorem trailingZeros_lt (h0 : m ≠ 0) (h : m < 2 ^ k) : trailingZeros m < k := by
  induction k generalizing m with
  | zero => omega
  | succ k ih =>
    rw [Nat.pow_succ] at h
    obtain ⟨n, rfl | rfl⟩ := Nat.even_or_odd' m
    · have hn : n ≠ 0 := by omega
      have hlt := ih hn (by omega)
      rw [trailingZeros_two_mul hn]
      omega
    · rw [trailingZeros_two_mul_add_one]
      omega

/-- **Numbers at the same distance from a power of two** end in as many zeros. -/
theorem trailingZeros_two_pow_add (h0 : m ≠ 0) (h : m < 2 ^ k) :
    trailingZeros (2 ^ k + m) = trailingZeros (2 ^ k - m) := by
  induction k generalizing m with
  | zero => omega
  | succ k ih =>
    rw [Nat.pow_succ] at h ⊢
    obtain ⟨n, rfl | rfl⟩ := Nat.even_or_odd' m
    · have hn : n < 2 ^ k := by omega
      have hadd : 2 ^ k * 2 + 2 * n = 2 * (2 ^ k + n) := by omega
      have hsub : 2 ^ k * 2 - 2 * n = 2 * (2 ^ k - n) := by omega
      rw [hadd, hsub, trailingZeros_two_mul (by omega), trailingZeros_two_mul (by omega),
        ih (by omega) hn]
    · have hadd : 2 ^ k * 2 + (2 * n + 1) = 2 * (2 ^ k + n) + 1 := by omega
      have hsub : 2 ^ k * 2 - (2 * n + 1) = 2 * (2 ^ k - n - 1) + 1 := by omega
      rw [hadd, hsub, trailingZeros_two_mul_add_one, trailingZeros_two_mul_add_one]

/-! ### A power of two above a number -/

theorem testBit_two_pow_add (h : m < 2 ^ k) (i : ℕ) :
    (2 ^ k + m).testBit i = (decide (k = i) || m.testBit i) := by
  have heq := Nat.two_pow_add_eq_or_of_lt h 1
  rw [Nat.mul_one] at heq
  rw [heq, Nat.testBit_or, Nat.testBit_two_pow]

theorem and_two_pow_add_of_lt (hj : j < 2 ^ k) (hg : g < 2 ^ k) :
    j &&& (2 ^ k + g) = j &&& g := by
  refine Nat.eq_of_testBit_eq fun i => ?_
  rw [Nat.testBit_and, Nat.testBit_and, testBit_two_pow_add hg]
  by_cases hi : k = i
  · subst hi
    rw [Nat.testBit_lt_two_pow hj, Bool.false_and, Bool.false_and]
  · rw [decide_eq_false hi, Bool.false_or]

theorem two_pow_add_and_of_lt (hj : j < 2 ^ k) (hg : g < 2 ^ k) :
    (2 ^ k + j) &&& g = j &&& g := by
  rw [Nat.and_comm, and_two_pow_add_of_lt hg hj, Nat.and_comm]

theorem two_pow_add_and_two_pow_add (hj : j < 2 ^ k) (hg : g < 2 ^ k) :
    (2 ^ k + j) &&& (2 ^ k + g) = 2 ^ k + (j &&& g) := by
  have hand : j &&& g < 2 ^ k := Nat.and_lt_two_pow j hg
  refine Nat.eq_of_testBit_eq fun i => ?_
  rw [Nat.testBit_and, testBit_two_pow_add hj, testBit_two_pow_add hg, testBit_two_pow_add hand,
    Nat.testBit_and, Bool.or_and_distrib_left]

/-! ### The Gray code -/

/-- The Gray code of a number. -/
def gray (p : ℕ) : ℕ := p ^^^ (p >>> 1)

theorem testBit_gray (p i : ℕ) : (gray p).testBit i = (p.testBit i ^^ p.testBit (i + 1)) := by
  rw [gray, Nat.testBit_xor, Nat.testBit_shiftRight, Nat.add_comm]

theorem gray_lt (h : p < 2 ^ k) : gray p < 2 ^ k :=
  Nat.xor_lt_two_pow h ((Nat.shiftRight_le p 1).trans_lt h)

/-- **The Gray code is reflected** at a power of two. -/
theorem gray_two_pow_add (h : p < 2 ^ k) : gray (2 ^ k + p) = 2 ^ k + gray (2 ^ k - 1 - p) := by
  have hmirror : 2 ^ k - 1 - p < 2 ^ k := by omega
  have hsub : 2 ^ k - 1 - p = 2 ^ k - (p + 1) := by omega
  refine Nat.eq_of_testBit_eq fun i => ?_
  rw [testBit_two_pow_add (gray_lt hmirror), testBit_gray, testBit_gray, testBit_two_pow_add h,
    testBit_two_pow_add h, hsub, Nat.testBit_two_pow_sub_succ h, Nat.testBit_two_pow_sub_succ h]
  have hhigh : ∀ l, k ≤ l → p.testBit l = false := fun l hl =>
    Nat.testBit_lt_two_pow (h.trans_le (Nat.pow_le_pow_right Nat.two_pos hl))
  rcases Nat.lt_or_ge i k with hi | hi
  · -- the mirror image has both bits turned around, so they differ where they did before
    have hne : k ≠ i := by omega
    rcases Nat.lt_or_ge (i + 1) k with hnext | hnext
    · have hne' : k ≠ i + 1 := by omega
      simp [hne, hne', hi, hnext]
    · obtain rfl : k = i + 1 := by omega
      simp [hhigh]
  · have hlow : ¬ i < k := by omega
    have hlow' : ¬ i + 1 < k := by omega
    have hne : k ≠ i + 1 := by omega
    simp [hhigh, hi, hhigh (i + 1) (by omega), hlow, hlow', hne]

end StatePrep
