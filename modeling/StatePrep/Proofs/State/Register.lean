import Mathlib.Tactic.Ring
import StatePrep.Proofs.State.Scan

/-! # Registers inside an index

A register is a list of qubits, the least significant first. Inside the index of a basis state it
holds a number (`readRegister`), bit `j` of which is the value of the qubit at place `j`
(`testBit_readRegister`). What the other qubits hold is the index with the bits of the register
cleared (`clearRegister`). -/

namespace StatePrep

variable {t i : ℕ}

/-! ### The number in a register -/

/-- The number that a register holds in a basis state. -/
def readRegister : List Qubit → ℕ → ℕ
  | [], _ => 0
  | q :: qs, i => (i.testBit q.bit).toNat + 2 * readRegister qs i

theorem readRegister_lt (qs : List Qubit) (i : ℕ) : readRegister qs i < 2 ^ qs.length := by
  induction qs with
  | nil => exact Nat.one_pos
  | cons q qs ih =>
    have hbit := Bool.toNat_lt (i.testBit q.bit)
    rw [readRegister, List.length_cons, Nat.pow_succ]
    omega

/-- **The bits of the number** are the values of the qubits. -/
theorem testBit_readRegister (qs : List Qubit) (i j : ℕ) :
    (readRegister qs i).testBit j = qs[j]?.any fun q => i.testBit q.bit := by
  induction qs generalizing j with
  | nil => simp [readRegister]
  | cons q qs ih =>
    rw [readRegister, Nat.add_comm]
    cases j with
    | zero => cases h : i.testBit q.bit <;> simp [Nat.testBit_zero, h]
    | succ j =>
      have hhalf : (2 * readRegister qs i + (i.testBit q.bit).toNat) / 2 = readRegister qs i := by
        have hbit := Bool.toNat_lt (i.testBit q.bit)
        omega
      rw [Nat.testBit_succ, hhalf, ih, List.getElem?_cons_succ]

theorem readRegister_append (qs rs : List Qubit) (i : ℕ) :
    readRegister (qs ++ rs) i = readRegister qs i + 2 ^ qs.length * readRegister rs i := by
  induction qs with
  | nil => simp [readRegister]
  | cons q qs ih =>
    rw [List.cons_append, readRegister, ih, readRegister, List.length_cons, Nat.pow_succ]
    ring

theorem readRegister_partner {qs : List Qubit} (h : ∀ q ∈ qs, t ≠ q.bit) (i : ℕ) :
    readRegister qs (partner t i) = readRegister qs i := by
  induction qs with
  | nil => rfl
  | cons q qs ih =>
    rw [readRegister, readRegister, testBit_partner_of_ne (h q (by simp)),
      ih fun r hr => h r (by simp [hr])]

/-- **Every number can be held**, with all other qubits zero. -/
theorem exists_readRegister_eq {qs : List Qubit} (hnodup : qs.Nodup) :
    ∀ {j : ℕ}, j < 2 ^ qs.length →
      ∃ i, readRegister qs i = j ∧ ∀ t, i.testBit t = true → ∃ q ∈ qs, q.bit = t := by
  induction qs with
  | nil =>
    intro j hj
    obtain rfl := Nat.lt_one_iff.mp hj
    exact ⟨0, rfl, fun t ht => absurd ht (by simp)⟩
  | cons q qs ih =>
    intro j hj
    obtain ⟨hq, hnodup'⟩ := List.nodup_cons.mp hnodup
    rw [List.length_cons, Nat.pow_succ] at hj
    obtain ⟨i, hread, hbits⟩ := ih hnodup' (j := j / 2) (by omega)
    have hzero : i.testBit q.bit = false := by
      rw [← Bool.not_eq_true]
      intro h
      obtain ⟨r, hr, hbit⟩ := hbits _ h
      exact hq (Qubit.bit_inj.mp hbit ▸ hr)
    -- the lowest bit of the number is the value of the first qubit
    cases hlow : j.testBit 0 with
    | false =>
      refine ⟨i, ?_, fun t ht => ?_⟩
      · rw [readRegister, hzero, hread, Bool.toNat_false]
        rw [Nat.testBit_zero, decide_eq_false_iff_not] at hlow
        omega
      · obtain ⟨r, hr, hbit⟩ := hbits t ht
        exact ⟨r, List.mem_cons_of_mem q hr, hbit⟩
    | true =>
      have hne : ∀ r ∈ qs, q.bit ≠ r.bit := fun r hr h => hq (Qubit.bit_inj.mp h ▸ hr)
      refine ⟨partner q.bit i, ?_, fun t ht => ?_⟩
      · rw [readRegister, testBit_partner_self, hzero, readRegister_partner hne, hread]
        rw [Nat.testBit_zero, decide_eq_true_iff] at hlow
        simp only [Bool.not_false, Bool.toNat_true]
        omega
      · by_cases h : q.bit = t
        · exact ⟨q, List.mem_cons_self, h⟩
        · rw [testBit_partner_of_ne h] at ht
          obtain ⟨r, hr, hbit⟩ := hbits t ht
          exact ⟨r, List.mem_cons_of_mem q hr, hbit⟩

/-! ### What is outside a register -/

/-- The index with bit `t` cleared. -/
def clearBit (t i : ℕ) : ℕ := if i.testBit t then partner t i else i

theorem testBit_clearBit (t i j : ℕ) : (clearBit t i).testBit j = (i.testBit j && t != j) := by
  unfold clearBit
  by_cases h : t = j
  · subst h
    split <;> simp_all
  · split <;> simp [testBit_partner_of_ne, h]

/-- The index with the bits of a register cleared. -/
def clearRegister (qs : List Qubit) (i : ℕ) : ℕ := qs.foldr (fun q => clearBit q.bit) i

theorem testBit_clearRegister (qs : List Qubit) (i j : ℕ) :
    (clearRegister qs i).testBit j = (i.testBit j && qs.all fun q => q.bit != j) := by
  induction qs with
  | nil => simp [clearRegister]
  | cons q qs ih =>
    rw [clearRegister, List.foldr_cons, testBit_clearBit, List.all_cons]
    rw [clearRegister] at ih
    rw [ih, Bool.and_comm (q.bit != j), Bool.and_assoc]

theorem clearRegister_lt {n : ℕ} (qs : List Qubit) (h : i < 2 ^ n) :
    clearRegister qs i < 2 ^ n := by
  refine Nat.lt_pow_two_of_testBit _ fun j hj => ?_
  have hbit : i.testBit j = false :=
    Nat.testBit_lt_two_pow (h.trans_le (Nat.pow_le_pow_right Nat.two_pos hj))
  rw [testBit_clearRegister, hbit, Bool.false_and]

theorem clearRegister_cons_of_zero {q : Qubit} (h : i.testBit q.bit = false) (qs : List Qubit) :
    clearRegister (q :: qs) i = clearRegister qs i := by
  have hzero : (clearRegister qs i).testBit q.bit = false := by
    rw [testBit_clearRegister, h, Bool.false_and]
  rw [clearRegister, List.foldr_cons]
  exact if_neg (by rw [← clearRegister, hzero]; decide)

theorem clearRegister_partner {q : Qubit} {qs : List Qubit} (h : q ∈ qs) (i : ℕ) :
    clearRegister qs (partner q.bit i) = clearRegister qs i := by
  refine Nat.eq_of_testBit_eq fun j => ?_
  rw [testBit_clearRegister, testBit_clearRegister]
  by_cases hj : q.bit = j
  · have hall : (qs.all fun q => q.bit != j) = false := by
      rw [List.all_eq_false]
      exact ⟨q, h, by simp [hj]⟩
    rw [hall, Bool.and_false, Bool.and_false]
  · rw [testBit_partner_of_ne hj]

/-- **A basis state is known** by what the register holds and what is outside. -/
theorem eq_of_readRegister_eq {qs : List Qubit} {j : ℕ}
    (hread : readRegister qs i = readRegister qs j)
    (hclear : clearRegister qs i = clearRegister qs j) : i = j := by
  refine Nat.eq_of_testBit_eq fun b => ?_
  by_cases hb : ∃ q ∈ qs, q.bit = b
  · obtain ⟨q, hq, rfl⟩ := hb
    obtain ⟨k, hk, rfl⟩ := List.getElem_of_mem hq
    have hbit := congrArg (fun r => r.testBit k) hread
    simpa only [testBit_readRegister, List.getElem?_eq_getElem hk, Option.any_some] using hbit
  · have hall : (qs.all fun q => q.bit != b) = true := by
      rw [List.all_eq_true]
      intro q hq
      rw [bne_iff_ne]
      exact fun h => hb ⟨q, hq, h⟩
    have hbit := congrArg (fun r => r.testBit b) hclear
    simpa only [testBit_clearRegister, hall, Bool.and_true] using hbit

end StatePrep
