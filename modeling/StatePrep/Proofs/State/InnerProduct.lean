import StatePrep.Proofs.State.Placed

/-! # Inner products of states

The inner product of two states of one size (`innerProduct`) decides their lengths
(`innerProduct_self`), total weights (`weight_toList`) and fidelity (`fidelity_eq`). The simulator
refuses an operation on both of them or on neither, and an operation that is applied is unitary. So
a sequence of gates keeps inner products (`innerProduct_applyAll`), and with them weights and
fidelities (`innerProduct_applyTree`). -/

namespace StatePrep

open Complex ComplexConjugate

theorem Amplitude.toComplex_total (amps : List (Amplitude ℝ)) :
    (total amps).toComplex = (amps.map toComplex).sum := by
  have fold : ∀ (amps : List (Amplitude ℝ)) (s : Amplitude ℝ),
      (amps.foldl (· + ·) s).toComplex = s.toComplex + (amps.map toComplex).sum := by
    intro amps
    induction amps with
    | nil => intro s; simp
    | cons a amps ih =>
      intro s
      rw [List.foldl_cons, ih, toComplex_add, List.map_cons, List.sum_cons, add_assoc]
  exact (fold amps 0).trans (zero_add _)

namespace QuantumState

variable {n : ℕ}

/-- The inner product of two states. -/
noncomputable def innerProduct (v w : QuantumState ℝ n) : ℂ :=
  ∑ i : Fin (2 ^ n), conj (v.amps.get i).toComplex * (w.amps.get i).toComplex

theorem innerProduct_eq_overlap (v w : QuantumState ℝ n) :
    v.innerProduct w = overlap n v.wave w.wave := by
  rw [innerProduct, overlap, Finset.sum_range]
  refine Finset.sum_congr rfl fun i _ => ?_
  rw [wave_of_lt v i.isLt, wave_of_lt w i.isLt]
  rfl

/-! ### Weight and fidelity -/

theorem toList_eq_ofFn {α : Type} (v : QuantumState α n) :
    v.toList = List.ofFn v.amps.get := by
  refine List.ext_getElem ?_ fun i hi _ => ?_
  · rw [List.length_ofFn]
    exact v.amps.length_toList
  · rw [List.getElem_ofFn]
    exact Vector.getElem_toList hi

theorem innerProduct_self (v : QuantumState ℝ n) : v.innerProduct v = (v.norm ^ 2 : ℝ) := by
  rw [innerProduct_eq_overlap, overlap_self, norm_eq_below]

/-- **The total weight of a state** is its length, squared. -/
theorem weight_toList (v : QuantumState ℝ n) : Amplitude.weight v.toList = v.norm ^ 2 := by
  rw [norm, Real.sq_sqrt (Finset.sum_nonneg fun i _ => sq_nonneg _), Amplitude.weight_eq_sum,
    toList_eq_ofFn, List.map_ofFn, List.sum_ofFn]
  rfl

/-- **The fidelity of two states** is the squared magnitude of their inner product. -/
theorem fidelity_eq (v w : QuantumState ℝ n) : v.fidelity w = ‖v.innerProduct w‖ ^ 2 := by
  have hsum : (Amplitude.total ((v.toList.zip w.toList).map fun p => p.1.conj * p.2)).toComplex =
      v.innerProduct w := by
    have hzip : v.toList.zip w.toList =
        List.ofFn fun i : Fin (2 ^ n) => (v.amps.get i, w.amps.get i) := by
      rw [toList_eq_ofFn, toList_eq_ofFn]
      exact List.ext_getElem (by simp) fun i _ _ => by simp
    rw [Amplitude.toComplex_total, hzip, List.map_map, List.map_ofFn, List.sum_ofFn]
    exact Finset.sum_congr rfl fun i _ => rfl
  rw [fidelity, Amplitude.normSq_eq, hsum]

/-! ### What gates keep -/

theorem innerProduct_apply {op : Operation ℝ} {v w v' w' : QuantumState ℝ n}
    (hv : v.apply op = .ok v') (hw : w.apply op = .ok w') :
    v'.innerProduct w' = v.innerProduct w := by
  have hfits : op.Fits n := exists_apply_iff_fits.mp ⟨v', hv⟩
  rw [innerProduct_eq_overlap, wave_of_apply hv, wave_of_apply hw,
    Operation.overlap_act_act hfits, innerProduct_eq_overlap]

/-- **A sequence keeps inner products.** Where an operation is refused, it is refused for both
states, and both stay what the operations before have made of them. -/
theorem innerProduct_applyAll (ops : List (Operation ℝ)) (v w : QuantumState ℝ n) :
    (applyAll ops v).1.innerProduct (applyAll ops w).1 = v.innerProduct w := by
  induction ops generalizing v w with
  | nil => rfl
  | cons op ops ih =>
    rw [applyAll, applyAll]
    by_cases hfits : op.Fits n
    · obtain ⟨v', hv⟩ := exists_apply_iff_fits (v := v).mpr hfits
      obtain ⟨w', hw⟩ := exists_apply_iff_fits (v := w).mpr hfits
      rw [hv, hw]
      exact (ih v' w').trans (innerProduct_apply hv hw)
    · obtain ⟨e, hv⟩ := exists_apply_eq_error hfits v
      obtain ⟨e', hw⟩ := exists_apply_eq_error hfits w
      rw [hv, hw]

/-- **Simulation is unitary.** A tree leaves the inner product of two states, the total weight of
each and their fidelity as they were, also if it is stopped at an operation that is refused. -/
theorem innerProduct_applyTree (t : GateTree ℝ) (v w : QuantumState ℝ n) :
    (v.applyTree t).1.innerProduct (w.applyTree t).1 = v.innerProduct w ∧
      Amplitude.weight (v.applyTree t).1.toList = Amplitude.weight v.toList ∧
      (v.applyTree t).1.fidelity (w.applyTree t).1 = v.fidelity w := by
  have hinner : ∀ v w : QuantumState ℝ n,
      (v.applyTree t).1.innerProduct (w.applyTree t).1 = v.innerProduct w :=
    fun v w => innerProduct_applyAll t.leaves v w
  refine ⟨hinner v w, ?_, ?_⟩
  · have hself := hinner v v
    rw [innerProduct_self, innerProduct_self, ofReal_inj] at hself
    rw [weight_toList, weight_toList, hself]
  · rw [fidelity_eq, fidelity_eq, hinner v w]

end QuantumState

end StatePrep
