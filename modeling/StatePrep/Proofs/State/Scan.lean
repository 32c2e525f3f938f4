import Mathlib.Data.Nat.Bitwise
import StatePrep.State.Apply

/-! # What a scan over pairs does

The simulator changes a state in place, while it runs over the indices. Two indices that differ in
bit `t` alone are *partners*. The scan changes both amplitudes of a pair when it meets the lower
index, and neither of them again, so in the end every pair has been replaced by its image under one
map, as if at once (`getElem_scanPairs`).

`getElem_applyMatrix` and `getElem_applyCx` say this of the two scans of the simulator. No law of
arithmetic is needed. -/

namespace StatePrep

/-! ### Partners -/

/-- The index that differs from `i` in bit `t` alone. -/
def partner (t i : ℕ) : ℕ := i ^^^ 2 ^ t

@[simp] theorem partner_partner (t i : ℕ) : partner t (partner t i) = i := by
  unfold partner
  rw [Nat.xor_assoc, Nat.xor_self, Nat.xor_zero]

@[simp] theorem testBit_partner_self (t i : ℕ) : (partner t i).testBit t = !i.testBit t := by
  unfold partner
  rw [Nat.testBit_xor, Nat.testBit_two_pow_self, Bool.xor_true]

theorem testBit_partner_of_ne {t j : ℕ} (h : t ≠ j) (i : ℕ) :
    (partner t i).testBit j = i.testBit j := by
  unfold partner
  rw [Nat.testBit_xor, Nat.testBit_two_pow_of_ne h, Bool.xor_false]

theorem partner_ne (t i : ℕ) : partner t i ≠ i := by
  intro h
  have := congrArg (fun j => Nat.testBit j t) h
  simp at this

theorem partner_lt {t i n : ℕ} (ht : t < n) (hi : i < 2 ^ n) : partner t i < 2 ^ n :=
  Nat.xor_lt_two_pow hi (Nat.pow_lt_pow_right (by omega) ht)

theorem partner_lt_iff {t i n : ℕ} (ht : t < n) : partner t i < 2 ^ n ↔ i < 2 ^ n := by
  refine ⟨fun h => ?_, partner_lt ht⟩
  rw [← partner_partner t i]
  exact partner_lt ht h

theorem partner_comm (s t i : ℕ) : partner s (partner t i) = partner t (partner s i) :=
  Nat.xor_right_comm i (2 ^ t) (2 ^ s)

theorem or_two_pow_eq_partner {t i : ℕ} (h : i.testBit t = false) : i ||| 2 ^ t = partner t i := by
  refine Nat.eq_of_testBit_eq fun j => ?_
  rw [Nat.testBit_or]
  by_cases hj : t = j
  · subst hj
    rw [testBit_partner_self, h, Nat.testBit_two_pow_self]; rfl
  · rw [testBit_partner_of_ne hj, Nat.testBit_two_pow_of_ne hj, Bool.or_false]

/-! ### The scan -/

section Scan

variable {β : Type} {n : ℕ}

theorem setBit_lt_two_pow (t : Fin n) {i : ℕ} (hi : i < 2 ^ n) : i ||| 2 ^ t.val < 2 ^ n :=
  QuantumState.setBit_lt hi t.isLt

theorem partner_lt_two_pow (t : Fin n) {i : ℕ} (hi : i < 2 ^ n) : partner t i < 2 ^ n :=
  partner_lt t.isLt hi

/-- One step of a scan: at an index that `meets` accepts, the two entries of a pair are replaced by
their image. -/
def scanStep (t : Fin n) (meets : ℕ → Bool) (image : β → β → β × β) (i : ℕ) (hi : i < 2 ^ n)
    (v : Vector β (2 ^ n)) : Vector β (2 ^ n) :=
  if meets i then
    have hj := setBit_lt_two_pow t hi
    (v.set i (image v[i] v[i ||| 2 ^ t.val]).1).set (i ||| 2 ^ t.val)
      (image v[i] v[i ||| 2 ^ t.val]).2
  else v

/-- The entry at `i` after all pairs with a lower index below `k` have been replaced. -/
def scannedEntry (t : Fin n) (meets : ℕ → Bool) (image : β → β → β × β) (v : Vector β (2 ^ n))
    (k i : ℕ) (hi : i < 2 ^ n) : β :=
  have hj := partner_lt_two_pow t hi
  if i.testBit t then
    if partner t i < k ∧ meets (partner t i) then (image v[partner t i] v[i]).2 else v[i]
  else
    if i < k ∧ meets i then (image v[i] v[partner t i]).1 else v[i]

/-- **One step** replaces the pair whose lower index it is at, and reads no entry that an earlier
step has written. -/
theorem scanStep_entry (t : Fin n) {meets : ℕ → Bool} (image : β → β → β × β)
    (hmeets : ∀ i, meets i = true → i.testBit t = false) (v w : Vector β (2 ^ n)) {k : ℕ}
    (hk : k < 2 ^ n) (hw : ∀ i (hi : i < 2 ^ n), w[i] = scannedEntry t meets image v k i hi) (i : ℕ)
    (hi : i < 2 ^ n) :
    (scanStep t meets image k hk w)[i] = scannedEntry t meets image v (k + 1) i hi := by
  unfold scanStep
  by_cases hmk : meets k = true
  · have hkt := hmeets k hmk
    have hor := or_two_pow_eq_partner hkt
    have hpk := partner_lt t.isLt hk
    have hlow : w[k] = v[k] := by rw [hw k hk]; simp [scannedEntry, hkt]
    have hup : w[partner t k] = v[partner t k] := by
      rw [hw _ hpk]; simp [scannedEntry, hkt]
    simp only [hmk, if_true, hor, hlow, hup]
    by_cases hik : i = k
    · subst hik
      rw [Vector.getElem_set_ne _ _ (partner_ne t i), Vector.getElem_set_self]
      simp [scannedEntry, hkt, hmk]
    · by_cases hip : i = partner t k
      · subst hip
        rw [Vector.getElem_set_self]
        simp [scannedEntry, hkt, hmk]
      · rw [Vector.getElem_set_ne _ _ (Ne.symm hip), Vector.getElem_set_ne _ _ (Ne.symm hik),
          hw i hi]
        have hpi : partner t i ≠ k := fun h => hip (by rw [← h, partner_partner])
        unfold scannedEntry
        simp only [Nat.lt_succ_iff_lt_or_eq, hik, hpi, or_false]
  · simp only [hmk, if_false, Bool.false_eq_true]
    rw [hw i hi]
    unfold scannedEntry
    have skip : ∀ j, (j < k + 1 ∧ meets j = true) ↔ (j < k ∧ meets j = true) := by
      intro j
      constructor
      · rintro ⟨hj, hm⟩
        refine ⟨?_, hm⟩
        rcases Nat.lt_succ_iff_lt_or_eq.mp hj with hj | rfl
        · exact hj
        · exact absurd hm hmk
      · rintro ⟨hj, hm⟩
        exact ⟨by omega, hm⟩
    simp only [skip]

/-- **A scan replaces every pair by its image.** -/
theorem getElem_scanPairs (t : Fin n) (meets : ℕ → Bool) (image : β → β → β × β)
    (hmeets : ∀ i, meets i = true → i.testBit t = false) (v : Vector β (2 ^ n)) (i : ℕ)
    (hi : i < 2 ^ n) :
    (Nat.fold (2 ^ n) (scanStep t meets image) v)[i] =
      scannedEntry t meets image v (2 ^ n) i hi := by
  have prefixes : ∀ k (hk : k ≤ 2 ^ n) (i : ℕ) (hi : i < 2 ^ n),
      (Nat.fold k (fun j hj => scanStep t meets image j (by omega)) v)[i] =
        scannedEntry t meets image v k i hi := by
    intro k
    induction k with
    | zero => intro _ i hi; simp [scannedEntry]
    | succ k ih =>
      intro hk i hi
      rw [Nat.fold_succ]
      exact scanStep_entry t image hmeets v _ hk (fun j hj => ih (by omega) j hj) i hi
  exact prefixes (2 ^ n) le_rfl i hi

end Scan

/-! ### The two scans of the simulator -/

namespace QuantumState

variable {α : Type} {n : ℕ}

theorem ext_amps {v w : QuantumState α n} (h : ∀ i (hi : i < 2 ^ n), v.amps[i] = w.amps[i]) :
    v = w := by
  cases v
  cases w
  exact congrArg mk (Vector.ext h)

/-- **A matrix acts on every pair at once.** -/
theorem getElem_applyMatrix [Scalar α] (m : Matrix2 α) (q : Fin n) (v : QuantumState α n) (i : ℕ)
    (hi : i < 2 ^ n) :
    have hj := partner_lt q.isLt hi
    (v.applyMatrix m q).amps[i] =
      if i.testBit q then (m.apply v.amps[partner q i] v.amps[i]).2
      else (m.apply v.amps[i] v.amps[partner q i]).1 := by
  have hstep : (fun i hi (amps : Vector (Amplitude α) (2 ^ n)) =>
      if i.testBit q then amps
      else
        have hj := setBit_lt hi q.isLt
        let images := m.apply amps[i] amps[i ||| 2 ^ q.val]
        (amps.set i images.1).set (i ||| 2 ^ q.val) images.2) =
      scanStep q (fun i => !i.testBit q) m.apply := by
    funext i hi amps
    unfold scanStep
    cases h : i.testBit q <;> simp [h]
  have hscan := getElem_scanPairs q (fun i => !i.testBit q) m.apply
    (fun i h => by simpa using h) v.amps i hi
  rw [← hstep] at hscan
  refine hscan.trans ?_
  unfold scannedEntry
  have hp := partner_lt q.isLt hi
  cases h : i.testBit q <;> simp [h, hi, hp]

/-- **The controlled flip exchanges the pairs whose control bit is set.** With the same qubit as
control and target it exchanges none. -/
theorem getElem_applyCx (control target : Fin n) (v : QuantumState α n) (i : ℕ) (hi : i < 2 ^ n) :
    have hj := partner_lt target.isLt hi
    (v.applyCx control target).amps[i] =
      if i.testBit control ∧ control ≠ target then v.amps[partner target i] else v.amps[i] := by
  have hstep : (fun i hi (amps : Vector (Amplitude α) (2 ^ n)) =>
      if i.testBit control && !i.testBit target then
        have hj := setBit_lt hi target.isLt
        amps.swap i (i ||| 2 ^ target.val)
      else amps) =
      scanStep target (fun i => i.testBit control && !i.testBit target) (fun a b => (b, a)) := by
    funext i hi amps
    unfold scanStep
    dsimp only
    split
    · rfl
    · rfl
  have hscan := getElem_scanPairs target
    (fun i => i.testBit control && !i.testBit target) (fun a b => (b, a))
    (fun i h => by simp only [Bool.and_eq_true, Bool.not_eq_true'] at h; exact h.2) v.amps i hi
  rw [← hstep] at hscan
  refine hscan.trans ?_
  have hp := partner_lt target.isLt hi
  unfold scannedEntry
  by_cases hct : control = target
  · subst hct
    cases h : i.testBit control <;> simp [h]
  · have hne : target.val ≠ control.val := fun h => hct (Fin.ext h.symm)
    cases h : i.testBit target <;> cases hc : i.testBit control <;>
      simp [h, hc, hi, hp, hct, testBit_partner_of_ne hne]

/-- **The controlled flip undoes itself.** A qubit of a pair does not move its control bit. -/
theorem applyCx_applyCx (control target : Fin n) (v : QuantumState α n) :
    (v.applyCx control target).applyCx control target = v := by
  refine ext_amps fun i hi => ?_
  have hp := partner_lt target.isLt hi
  rw [getElem_applyCx, getElem_applyCx _ _ v _ hp, getElem_applyCx _ _ v i hi]
  by_cases h : i.testBit control ∧ control ≠ target
  · have hne : target.val ≠ control.val := fun h' => h.2 (Fin.ext h'.symm)
    have hpartner : (partner target i).testBit control ∧ control ≠ target := by
      rwa [testBit_partner_of_ne hne]
    rw [if_pos h, if_pos hpartner]
    simp only [partner_partner]
  · rw [if_neg h, if_neg h]

end QuantumState

end StatePrep
