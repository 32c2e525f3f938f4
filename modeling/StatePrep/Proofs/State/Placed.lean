import Mathlib.Data.List.GetD
import StatePrep.Proofs.State.Register
import StatePrep.Proofs.Wave.Overlap

/-! # Amplitudes on a register

The wave with given amplitudes on a register and a given wave on the qubits outside (`place`).
Beside `ground` its length is at most that of the amplitudes (`norm_place_ground_sq_le`).

The state with given amplitudes on a register and zeros on all other qubits (`placed`), multiples of
a state (`scale`), states in which a register is zero (`HoldsZero`), the Euclidean length of a state
(`norm`) and the distance of two (`distance`), with their waves. -/

namespace StatePrep

/-! ### Waves -/

/-- The amplitude at an index, zero beyond the end of the list. -/
noncomputable def amplitudeAt (amps : List (Amplitude ℝ)) (j : ℕ) : ℂ := (amps.getD j 0).toComplex

theorem sum_norm_amplitudeAt {amps : List (Amplitude ℝ)} {m : ℕ} (h : amps.length = m) :
    ∑ j ∈ Finset.range m, ‖amplitudeAt amps j‖ ^ 2 = Amplitude.weight amps := by
  subst h
  rw [Amplitude.weight_eq_sum, ← Fin.sum_univ_fun_getElem, Finset.sum_range]
  refine Finset.sum_congr rfl fun j _ => ?_
  rw [amplitudeAt, List.getD_eq_getElem _ _ j.isLt]

/-- The wave with the amplitudes `psi` on a register and `chi` on the other qubits. -/
def place (register : List Qubit) (psi : ℕ → ℂ) (chi : Wave) : Wave :=
  fun i => psi (readRegister register i) * chi (clearRegister register i)

theorem place_nil (psi : ℕ → ℂ) (chi : Wave) : place [] psi chi = psi 0 • chi := rfl

theorem place_add (register : List Qubit) (psi rho : ℕ → ℂ) (chi : Wave) :
    place register (fun j => psi j + rho j) chi = place register psi chi + place register rho chi :=
  funext fun _ => add_mul _ _ _

theorem norm_place_ground_sq_le (register : List Qubit) (psi : ℕ → ℂ) (n : ℕ) :
    ‖below n (place register psi ground)‖ ^ 2 ≤
      ∑ j ∈ Finset.range (2 ^ register.length), ‖psi j‖ ^ 2 := by
  -- only the indices with nothing outside the register have an amplitude, each a different one
  let held : Finset ℕ := (Finset.range (2 ^ n)).filter fun i => clearRegister register i = 0
  have hsum : ‖below n (place register psi ground)‖ ^ 2 =
      ∑ i ∈ held, ‖psi (readRegister register i)‖ ^ 2 := by
    rw [norm_below_sq, Finset.sum_filter]
    refine Finset.sum_congr rfl fun i _ => ?_
    unfold place ground
    split <;> simp
  have himage : ∑ j ∈ held.image (readRegister register), ‖psi j‖ ^ 2 =
      ∑ i ∈ held, ‖psi (readRegister register i)‖ ^ 2 := by
    refine Finset.sum_image fun i hi j hj hij => eq_of_readRegister_eq hij ?_
    rw [(Finset.mem_filter.mp hi).2, (Finset.mem_filter.mp hj).2]
  rw [hsum, ← himage]
  refine Finset.sum_le_sum_of_subset_of_nonneg ?_ fun j _ _ => by positivity
  intro j hj
  obtain ⟨i, -, rfl⟩ := Finset.mem_image.mp hj
  exact Finset.mem_range.mpr (readRegister_lt register i)

/-! ### States -/

namespace QuantumState

variable {α : Type} {n : ℕ}

/-- The state with given amplitudes on a register, in which every other qubit is zero. -/
def placed [Scalar α] (n : ℕ) (amps : List (Amplitude α)) (register : List Qubit) :
    QuantumState α n :=
  ⟨Vector.ofFn fun i =>
    if clearRegister register i = 0 then amps.getD (readRegister register i) 0 else 0⟩

/-- The state with every amplitude multiplied by a factor. -/
def scale [Scalar α] (a : Amplitude α) (v : QuantumState α n) : QuantumState α n :=
  ⟨v.amps.map fun b => a * b⟩

/-- No basis state of the state has a qubit of the register set. -/
def HoldsZero [Scalar α] (v : QuantumState α n) (register : List Qubit) : Prop :=
  ∀ i (hi : i < 2 ^ n), ∀ q ∈ register, i.testBit q.bit = true → v.amps[i] = 0

theorem HoldsZero.wave_eq_zero {v : QuantumState ℝ n} {register : List Qubit}
    (h : v.HoldsZero register) : ∀ q ∈ register, ∀ i, i.testBit q.bit = true → v.wave i = 0 := by
  intro q hq i hbit
  by_cases hi : i < 2 ^ n
  · rw [wave_of_lt _ hi, h i hi q hq hbit, Amplitude.toComplex_zero]
  · exact wave_of_not_lt _ hi

theorem holdsZero_zero [Scalar α] (n : ℕ) (register : List Qubit) :
    (zero n : QuantumState α n).HoldsZero register := by
  intro i hi q _ hbit
  rw [getElem_zero n hi, if_neg]
  rintro rfl
  simp at hbit

/-- The Euclidean length of a state. -/
noncomputable def norm (v : QuantumState ℝ n) : ℝ :=
  Real.sqrt (∑ i : Fin (2 ^ n), ‖v.amps[i].toComplex‖ ^ 2)

theorem norm_eq_below (v : QuantumState ℝ n) : v.norm = ‖below n v.wave‖ := by
  rw [EuclideanSpace.norm_eq, norm]
  congr 1
  refine Finset.sum_congr rfl fun i _ => ?_
  rw [below_apply, wave_of_lt _ i.isLt]
  rfl

theorem norm_zero (n : ℕ) : (zero n : QuantumState ℝ n).norm = 1 := by
  rw [norm_eq_below, wave_zero, ← sq_eq_sq₀ (norm_nonneg _) one_pos.le, norm_below_sq, one_pow,
    Finset.sum_eq_single 0]
  · simp [ground]
  · intro i _ hi
    simp [ground, hi]
  · exact fun h => absurd (Finset.mem_range.mpr (Nat.two_pow_pos n)) h

/-- The Euclidean distance of two states. -/
noncomputable def distance (v w : QuantumState ℝ n) : ℝ :=
  Real.sqrt (∑ i : Fin (2 ^ n), ‖v.amps[i].toComplex - w.amps[i].toComplex‖ ^ 2)

theorem distance_eq (v w : QuantumState ℝ n) :
    v.distance w = ‖below n v.wave - below n w.wave‖ := by
  rw [EuclideanSpace.norm_eq, distance]
  congr 1
  refine Finset.sum_congr rfl fun i _ => ?_
  rw [PiLp.sub_apply, below_apply, below_apply, wave_of_lt _ i.isLt, wave_of_lt _ i.isLt]
  rfl

theorem toComplex_getElem_scale (a : Amplitude ℝ) (v : QuantumState ℝ n) {i : ℕ}
    (hi : i < 2 ^ n) : (v.scale a).amps[i].toComplex = a.toComplex * v.amps[i].toComplex := by
  unfold scale
  rw [Vector.getElem_map, Amplitude.toComplex_mul]

theorem wave_scale (a : Amplitude ℝ) (v : QuantumState ℝ n) :
    (v.scale a).wave = a.toComplex • v.wave := by
  funext i
  rw [Pi.smul_apply, smul_eq_mul]
  by_cases hi : i < 2 ^ n
  · rw [wave_of_lt _ hi, wave_of_lt _ hi, toComplex_getElem_scale]
  · rw [wave_of_not_lt _ hi, wave_of_not_lt _ hi, mul_zero]

theorem below_wave_placed (amps : List (Amplitude ℝ)) (register : List Qubit) :
    below n (placed n amps register).wave =
      below n (place register (amplitudeAt amps) ground) := by
  ext i
  rw [below_apply, below_apply, wave_of_lt _ i.isLt, placed, Vector.getElem_ofFn]
  unfold place ground amplitudeAt
  split <;> simp_all

end QuantumState

end StatePrep
