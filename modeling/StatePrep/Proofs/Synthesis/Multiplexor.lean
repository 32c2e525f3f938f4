import StatePrep.Proofs.State.Register
import StatePrep.Proofs.Synthesis.Ladder
import StatePrep.Proofs.Wave.Action

/-! # What a multiplexor does

About the `y` and the `z` axis a multiplexor turns its target by the angle whose index the controls
hold (`chosen`). Without its closing flip it is that rotation and then a flip of the target where
the highest control is set, and in the turned order it is the flip and then the rotation
(`Opened`). Two of these around a flip under a further control are again one of these, with the
half-sums and the half-differences of the angles put together: the flips inside meet and are gone
(`Opened.join`).

`opened_ladder` carries this through the recursion, and `exists_toTree_outermost` is the case in
which the closing flip is there. For the pairs of amplitudes of a state this is
`applyTree_multiplexor`. -/

namespace StatePrep

open Operation

namespace Multiplexor

variable {axis : Axis} {angles : List ℝ}

/-! ### The angle that is chosen -/

/-- The angle whose index the controls hold. -/
def chosen (controls : List Qubit) (angles : List ℝ) : ℕ → ℝ :=
  fun i => angles.getD (readRegister controls i) 0

theorem ignores_chosen {t : ℕ} {controls : List Qubit} (h : ∀ q ∈ controls, t ≠ q.bit)
    (angles : List ℝ) : Ignores t (chosen controls angles) := by
  intro i
  unfold chosen
  rw [readRegister_partner h]

theorem halfSums_eq {m : ℕ} (hlen : angles.length = m * 2) :
    halfSums angles =
      List.zipWith (fun a b => (a + b) / 2) (angles.take m) (angles.drop m) := by
  unfold halfSums
  simp only [hlen, Nat.mul_div_cancel _ Nat.two_pos, half_real]

theorem halfDifferences_eq {m : ℕ} (hlen : angles.length = m * 2) :
    halfDifferences angles =
      List.zipWith (fun a b => (a - b) / 2) (angles.take m) (angles.drop m) := by
  unfold halfDifferences
  simp only [hlen, Nat.mul_div_cancel _ Nat.two_pos, half_real]

/-- **The angle with one control more** is the half-sum, plus the half-difference where the control
is zero and minus it where the control is set. -/
theorem chosen_append {controls : List Qubit} {c : Qubit}
    (hlen : angles.length = 2 ^ controls.length * 2) (i : ℕ) :
    chosen (controls ++ [c]) angles i =
      signedBy c.bit (chosen controls (halfDifferences angles)) i +
        chosen controls (halfSums angles) i := by
  have hr := readRegister_lt controls i
  unfold signedBy
  dsimp only [chosen]
  rw [readRegister_append, halfSums_eq hlen, halfDifferences_eq hlen,
    getD_zipWith_halves _ hlen hr, getD_zipWith_halves _ hlen hr]
  cases h : i.testBit c.bit
  · simp only [readRegister, h, Bool.toNat_false, Nat.mul_zero, Nat.add_zero, Bool.false_eq_true,
      if_false]
    ring
  · simp only [readRegister, h, Bool.toNat_true, Nat.mul_zero, Nat.add_zero, Nat.mul_one, if_true]
    ring

/-! ### Multiplexors without a closing flip -/

/-- A rotation of the target, then a flip of the target where `last` is set; in the turned order the
flip and then the rotation. -/
structure Opened (axis : Axis) (target last : Qubit) (angle : ℕ → ℝ) (ops : List (Operation ℝ)) :
    Prop where
  forward : actAll ops = flipWhere last.bit target.bit * turn axis target.bit angle
  backward : actAll ops.reverse = turn axis target.bit angle * flipWhere last.bit target.bit

theorem Opened.rotation (axis : Axis) (target : Qubit) (theta : ℝ) :
    Opened axis target target (fun _ => theta) [.rotation axis theta target] := by
  constructor
  · rw [actAll_singleton, act_rotation, flipWhere_self, one_mul]
  · rw [List.reverse_singleton, actAll_singleton, act_rotation, flipWhere_self, mul_one]

section Join

variable {target last c : Qubit} {sum diff passed : ℕ → ℝ} {low high : List (Operation ℝ)}

/-- **Two around a flip are one with a further control**, if the flip turns the one angle into
another one. The flips under `last` meet across the flip in the middle, which they commute with, and
are gone. -/
theorem Opened.join_of_pass (hpass : turn axis target.bit diff * flipWhere c.bit target.bit =
      flipWhere c.bit target.bit * turn axis target.bit passed)
    (hsum : Ignores target.bit sum) (hpassed : Ignores target.bit passed)
    (hlow : Opened axis target last sum low) (hhigh : Opened axis target last diff high) :
    Opened axis target c (fun i => passed i + sum i) (low ++ .cx c target :: high.reverse) := by
  have meet : flipWhere last.bit target.bit * flipWhere c.bit target.bit *
      flipWhere last.bit target.bit = flipWhere c.bit target.bit := by
    rw [mul_assoc, (commute_flipWhere c.bit last.bit target.bit).eq, ← mul_assoc,
      flipWhere_mul_flipWhere, one_mul]
  constructor
  · calc actAll (low ++ .cx c target :: high.reverse)
        = turn axis target.bit diff * (flipWhere last.bit target.bit * flipWhere c.bit target.bit *
            flipWhere last.bit target.bit) * turn axis target.bit sum := by
          rw [actAll_append, actAll, act_cx, hhigh.backward, hlow.forward]
          simp only [mul_assoc]
      _ = flipWhere c.bit target.bit *
            (turn axis target.bit passed * turn axis target.bit sum) := by
          rw [meet, hpass, mul_assoc]
      _ = flipWhere c.bit target.bit * turn axis target.bit (fun i => passed i + sum i) := by
          rw [turn_mul_turn axis _ _ hsum]
  · have hback : flipWhere c.bit target.bit * turn axis target.bit diff =
        turn axis target.bit passed * flipWhere c.bit target.bit := by
      calc flipWhere c.bit target.bit * turn axis target.bit diff
          = flipWhere c.bit target.bit * (turn axis target.bit diff * flipWhere c.bit target.bit) *
              flipWhere c.bit target.bit := by
            rw [mul_assoc, mul_assoc, flipWhere_mul_flipWhere, mul_one]
        _ = turn axis target.bit passed * flipWhere c.bit target.bit := by
            rw [hpass, ← mul_assoc, flipWhere_mul_flipWhere, one_mul]
    have hreverse : (low ++ .cx c target :: high.reverse).reverse =
        high ++ .cx c target :: low.reverse := by
      simp
    calc actAll (low ++ .cx c target :: high.reverse).reverse
        = turn axis target.bit sum * (flipWhere last.bit target.bit * flipWhere c.bit target.bit *
            flipWhere last.bit target.bit) * turn axis target.bit diff := by
          rw [hreverse, actAll_append, actAll, act_cx, hlow.backward, hhigh.forward]
          simp only [mul_assoc]
      _ = turn axis target.bit sum * turn axis target.bit passed *
            flipWhere c.bit target.bit := by
          rw [meet, mul_assoc, hback, mul_assoc]
      _ = turn axis target.bit (fun i => passed i + sum i) * flipWhere c.bit target.bit := by
          rw [turn_mul_turn axis _ _ hpassed]
          simp only [add_comm (sum _)]

/-- About the `y` and the `z` axis the flip turns the second angle around. -/
theorem Opened.join (haxis : axis ≠ .x) (hc : c.bit ≠ target.bit) (hsum : Ignores target.bit sum)
    (hdiff : Ignores target.bit diff) (hlow : Opened axis target last sum low)
    (hhigh : Opened axis target last diff high) :
    Opened axis target c (fun i => signedBy c.bit diff i + sum i)
      (low ++ .cx c target :: high.reverse) :=
  hlow.join_of_pass (turn_mul_flipWhere haxis hc hdiff) hsum (hdiff.signedBy hc) hhigh

/-- About the `x` axis the flip leaves the second angle as it is. -/
theorem Opened.join_x (hsum : Ignores target.bit sum) (hdiff : Ignores target.bit diff)
    (hlow : Opened .x target last sum low) (hhigh : Opened .x target last diff high) :
    Opened .x target c (fun i => diff i + sum i) (low ++ .cx c target :: high.reverse) :=
  hlow.join_of_pass (commute_turn_x_flipWhere hdiff).eq hsum hdiff hhigh

end Join

/-- **A ladder is a multiplexor without its closing flip.** The last control is the highest one, or
the target if there is none. -/
theorem opened_ladder (haxis : axis ≠ .x) {target : Qubit} {controls : List Qubit}
    (hne : ∀ c ∈ controls, c.bit ≠ target.bit) : ∀ angles : List ℝ,
      angles.length = 2 ^ controls.length → Opened axis target (controls.headD target)
        (chosen controls.reverse angles) (ladder axis target controls angles) := by
  induction controls with
  | nil =>
    intro angles hlen
    obtain ⟨theta, rfl⟩ := List.length_eq_one_iff.mp hlen
    exact Opened.rotation axis target theta
  | cons c below ih =>
    intro angles hlen
    rw [List.length_cons, Nat.pow_succ] at hlen
    have hbelow : ∀ d ∈ below, d.bit ≠ target.bit := fun d hd => hne d (by simp [hd])
    have hignores : ∀ angles, Ignores target.bit (chosen below.reverse angles) :=
      ignores_chosen fun d hd => Ne.symm (hbelow d (List.mem_reverse.mp hd))
    have hhalf : angles.length / 2 = 2 ^ below.length := by omega
    have hlow := ih hbelow (halfSums angles) ((length_halfSums angles).trans hhalf)
    have hhigh := ih hbelow (halfDifferences angles) ((length_halfDifferences angles).trans hhalf)
    have hchosen : chosen (c :: below).reverse angles = fun i =>
        signedBy c.bit (chosen below.reverse (halfDifferences angles)) i +
          chosen below.reverse (halfSums angles) i := by
      funext i
      rw [List.reverse_cons, chosen_append (by rw [List.length_reverse, hlen])]
    rw [hchosen]
    exact hlow.join haxis (hne c (by simp)) (hignores _) (hignores _) hhigh

/-- A multiplexor is its ladder, and a flip is left over unless there is no control or the
multiplexor is the outermost one. -/
theorem Opened.actAll_flatten {m : Multiplexor} {bottom count : ℕ}
    (hcount : bottom + count < m.register.length) {angle : ℕ → ℝ}
    (hopened : Opened m.axis m.register[bottom]
      ((controlsAbove m.register bottom count).reverse.headD m.register[bottom]) angle
      (ladder m.axis m.register[bottom] (controlsAbove m.register bottom count).reverse angles))
    {t : GateTree ℝ} (ht : t.flatten = ladder m.axis m.register[bottom]
      (controlsAbove m.register bottom count).reverse angles ++
        closing m.register bottom count m.register[bottom]) :
    actAll t.flatten = (if count = 0 ∨ m.register.length = bottom + count + 1 then 1
      else flipWhere m.register[bottom + count].bit m.register[bottom].bit) *
        turn m.axis m.register[bottom].bit angle := by
  rw [ht, actAll_append, hopened.forward, ← mul_assoc]
  congr 1
  cases count with
  | zero =>
    rw [controlsAbove_zero, List.reverse_nil, List.headD_nil, flipWhere_self, mul_one,
      if_pos (.inl rfl)]
    rfl
  | succ count =>
    rw [controlsAbove_succ hcount, List.reverse_append, List.reverse_singleton,
      List.singleton_append, List.headD_cons]
    unfold closing
    by_cases htop : m.register.length = bottom + (count + 1) + 1
    · rw [if_pos ⟨by omega, htop⟩, if_pos (.inr htop), actAll_singleton, act_cx,
        List.getD_eq_getElem _ _ hcount]
      exact flipWhere_mul_flipWhere _ _
    · rw [if_neg (by omega), if_neg (by omega), actAll, one_mul]
      rfl

theorem opened_ladder_register {register : List Qubit} (haxis : axis ≠ .x)
    (hnodup : register.Nodup) {bottom count : ℕ} (hcount : bottom + count < register.length)
    (hlen : angles.length = 2 ^ count) :
    Opened axis register[bottom]
      ((controlsAbove register bottom count).reverse.headD register[bottom])
      (chosen (controlsAbove register bottom count) angles)
      (ladder axis register[bottom] (controlsAbove register bottom count).reverse angles) := by
  have hne : ∀ c ∈ (controlsAbove register bottom count).reverse, c.bit ≠ register[bottom].bit := by
    intro c hc h
    exact ne_of_mem_controlsAbove hnodup (by omega) (List.mem_reverse.mp hc) (Qubit.bit_inj.mp h)
  have hopened := opened_ladder haxis hne angles
    (by rw [List.length_reverse, length_controlsAbove hcount, hlen])
  rwa [List.reverse_reverse] at hopened

/-- **What the leaves of a multiplexor do**: the rotation by the chosen angle, and the flip that is
left out unless there is no control or the multiplexor is the outermost one. -/
theorem actAll_flatten {m : Multiplexor} (haxis : m.axis ≠ .x) (hnodup : m.register.Nodup)
    {bottom count : ℕ} (hcount : bottom + count < m.register.length) {t : GateTree ℝ}
    {angles : List ℝ} (hlen : angles.length = 2 ^ count)
    (ht : t.flatten = ladder m.axis m.register[bottom]
      (controlsAbove m.register bottom count).reverse angles ++
        closing m.register bottom count m.register[bottom]) :
    actAll t.flatten = (if count = 0 ∨ m.register.length = bottom + count + 1 then 1
      else flipWhere m.register[bottom + count].bit m.register[bottom].bit) *
        turn m.axis m.register[bottom].bit
          (chosen (controlsAbove m.register bottom count) angles) :=
  (opened_ladder_register haxis hnodup hcount hlen).actAll_flatten hcount ht

theorem fits_of_mem_flatten {α : Type} [Scalar α] {m : Multiplexor} {bottom count n : ℕ}
    (hcount : bottom + count < m.register.length) (hn : ∀ q ∈ m.register, q.bit < n)
    {t : GateTree α} {angles : List α}
    (ht : t.flatten = ladder m.axis m.register[bottom]
      (controlsAbove m.register bottom count).reverse angles ++
        closing m.register bottom count m.register[bottom]) :
    ∀ op ∈ t.flatten, op.Fits n := by
  have htarget : m.register[bottom].bit < n := hn _ (List.getElem_mem _)
  intro op hop
  rw [ht, List.mem_append] at hop
  rcases hop with hop | hop
  · rcases mem_ladder hop with ⟨theta, rfl⟩ | ⟨c, hc, rfl⟩
    · exact fits_rotation m.axis theta htarget
    · exact fits_cx (hn c (mem_of_mem_controlsAbove (List.mem_reverse.mp hc))) htarget
  · unfold closing at hop
    split at hop
    · rw [List.getD_eq_getElem _ _ hcount] at hop
      obtain rfl := List.mem_singleton.mp hop
      exact fits_cx (hn _ (List.getElem_mem _)) htarget
    · cases hop

theorem Opened.exists_toTree {register : List Qubit} {bottom count : ℕ}
    (htop : register.length = bottom + count + 1) (hlen : angles.length = 2 ^ count)
    {angle : ℕ → ℝ} (hopened : Opened axis register[bottom]
      ((controlsAbove register bottom count).reverse.headD register[bottom]) angle
      (ladder axis register[bottom] (controlsAbove register bottom count).reverse angles)) :
    ∃ tree, Multiplexor.toTree ⟨register, axis⟩ bottom angles = .ok tree ∧
      (∀ n, (∀ q ∈ register, q.bit < n) → ∀ op ∈ tree.flatten, op.Fits n) ∧
      actAll tree.flatten = turn axis register[bottom].bit angle := by
  have hbottom : bottom < register.length := by omega
  have hcount : bottom + count < register.length := by omega
  obtain ⟨tree, htree, hleaves⟩ :=
    flatten_ofControls ⟨register, axis⟩ hbottom count angles hlen hcount
  refine ⟨tree, ?_, fun n hn => fits_of_mem_flatten hcount hn hleaves, ?_⟩
  · rw [Multiplexor.toTree, hlen, Nat.log2_two_pow]
    exact htree
  · rw [Opened.actAll_flatten (m := ⟨register, axis⟩) hcount hopened hleaves, if_pos (.inr htop),
      one_mul]

/-- **The outermost multiplexor** rotates its target by the angle that the qubits above choose. -/
theorem exists_toTree_outermost {register : List Qubit} (hnodup : register.Nodup)
    (haxis : axis ≠ .x) (level : ℕ) {count : ℕ} (htop : register.length = level + count + 1)
    (hlen : angles.length = 2 ^ count) :
    ∃ tree, Multiplexor.toTree ⟨register, axis⟩ level angles = .ok tree ∧
      (∀ n, (∀ q ∈ register, q.bit < n) → ∀ op ∈ tree.flatten, op.Fits n) ∧
      actAll tree.flatten =
        turn axis register[level].bit (chosen (register.drop (level + 1)) angles) := by
  have hcontrols : controlsAbove register level count = register.drop (level + 1) :=
    List.take_of_length_le (by rw [List.length_drop]; omega)
  rw [← hcontrols]
  exact (opened_ladder_register haxis hnodup (by omega) hlen).exists_toTree htop hlen

/-! ### Pairs of amplitudes -/

/-- Every pair of amplitudes that differ only in the value of qubit `t` is turned about the axis, by
the angle whose index the controls hold. -/
def TurnsPairs {n : ℕ} (axis : Axis) (t : Fin n) (controls : List Qubit) (angles : List ℝ)
    (v w : QuantumState ℝ n) : Prop :=
  ∀ i (hi : i < 2 ^ n), i.testBit t = false →
    have hp := partner_lt_two_pow t hi
    ∃ angle, angles[readRegister controls i]? = some angle ∧
      (w.amps[i], w.amps[partner t i]) =
        (axis.matrix angle).apply v.amps[i] v.amps[partner t i]

theorem turnsPairs_of_wave_eq {n : ℕ} {t : Fin n} {controls : List Qubit}
    (hlen : angles.length = 2 ^ controls.length) (hne : ∀ c ∈ controls, t.val ≠ c.bit)
    {v w : QuantumState ℝ n} (h : w.wave = turn axis t (chosen controls angles) v.wave) :
    TurnsPairs axis t controls angles v w := by
  intro i hi hbit hp
  have hindex : readRegister controls i < angles.length := hlen ▸ readRegister_lt controls i
  have hchosen : chosen controls angles i = angles[readRegister controls i] :=
    List.getD_eq_getElem _ _ hindex
  refine ⟨_, List.getElem?_eq_getElem hindex, Prod.ext ?_ ?_⟩
  · apply Amplitude.toComplex_injective
    rw [← QuantumState.wave_of_lt w hi, h, turn, mix_apply, hbit, hchosen,
      QuantumState.wave_of_lt v hi, QuantumState.wave_of_lt v hp]
    simp [Matrix2.apply, Matrix2.stay, Matrix2.cross]
  · apply Amplitude.toComplex_injective
    rw [← QuantumState.wave_of_lt w hp, h, turn, mix_apply, testBit_partner_self, hbit,
      partner_partner, ignores_chosen hne, hchosen, QuantumState.wave_of_lt v hi,
      QuantumState.wave_of_lt v hp]
    simp [Matrix2.apply, Matrix2.stay, Matrix2.cross, add_comm]

/-- **A multiplexor about the `y` or the `z` axis** can be built and applied. If it has no control
or is the outermost one, it turns every pair of amplitudes by the angle that the controls choose;
otherwise it does so and then flips the target where the highest control is set. -/
theorem applyTree_multiplexor {register : List Qubit} (hnodup : register.Nodup) {axis : Axis}
    (haxis : axis = .y ∨ axis = .z) {bottom k : ℕ} (hk : bottom + k < register.length)
    {angles : List ℝ} (hlen : angles.length = 2 ^ k) :
    ∃ tree, Multiplexor.toTree ⟨register, axis⟩ bottom angles = .ok tree ∧
      ∀ {n : ℕ} (hn : ∀ q ∈ register, q.bit < n) (v : QuantumState ℝ n),
        let target : Fin n := ⟨register[bottom].bit, hn _ (List.getElem_mem _)⟩
        let control : Fin n := ⟨register[bottom + k].bit, hn _ (List.getElem_mem _)⟩
        ∃ u, TurnsPairs axis target (controlsAbove register bottom k) angles v u ∧
          v.applyTree tree = (if k = 0 ∨ register.length = bottom + k + 1 then u
            else u.applyCx control target, none) := by
  have hbottom : bottom < register.length := by omega
  have hax : axis ≠ .x := by rintro rfl; simp at haxis
  obtain ⟨tree, htree, hleaves⟩ :=
    flatten_ofControls ⟨register, axis⟩ hbottom k angles hlen hk
  refine ⟨tree, ?_, ?_⟩
  · rw [Multiplexor.toTree, hlen, Nat.log2_two_pow]
    exact htree
  · intro n hn v target control
    have hne : ∀ c ∈ controlsAbove register bottom k, target.val ≠ c.bit := by
      intro c hc h
      exact ne_of_mem_controlsAbove hnodup hbottom hc (Qubit.bit_inj.mp h.symm)
    obtain ⟨w, hw, hwave⟩ :=
      QuantumState.applyTree_of_fits (fits_of_mem_flatten hk hn hleaves) v
    rw [actAll_flatten (m := ⟨register, axis⟩) hax hnodup hk hlen hleaves,
      Module.End.mul_apply] at hwave
    obtain ⟨u, hu⟩ := QuantumState.exists_wave_eq (n := n)
      (f := turn axis target.val (chosen (controlsAbove register bottom k) angles) v.wave) (by
        intro i hi
        rw [turn, mix_apply, QuantumState.wave_of_not_lt v hi, QuantumState.wave_of_not_lt v
          ((partner_lt_iff target.isLt).not.mpr hi), mul_zero, mul_zero, add_zero])
    refine ⟨u, turnsPairs_of_wave_eq (by rw [length_controlsAbove hk, hlen]) hne hu, ?_⟩
    rw [hw]
    congr 1
    apply QuantumState.wave_injective
    rw [hwave]
    by_cases hopen : k = 0 ∨ register.length = bottom + k + 1
    · rw [if_pos hopen, if_pos hopen, hu]
      rfl
    · rw [if_neg hopen, if_neg hopen, QuantumState.wave_applyCx, hu]

/-- An inner multiplexor with one control, on a register that is not in the order of the qubits. -/
theorem applyTree_multiplexor_inner :
    ∃ tree, Multiplexor.toTree ⟨[⟨2⟩, ⟨0⟩, ⟨1⟩], .y⟩ 0 [(1 : ℝ), 2] = .ok tree ∧
      ∃ u, TurnsPairs .y (2 : Fin 3) [⟨0⟩] [1, 2] (.zero 3) u ∧
        (QuantumState.zero 3 : QuantumState ℝ 3).applyTree tree = (u.applyCx 0 2, none) := by
  obtain ⟨tree, htree, hstates⟩ := applyTree_multiplexor
    (show ([⟨2⟩, ⟨0⟩, ⟨1⟩] : List Qubit).Nodup by decide) (.inl (rfl : Axis.y = .y))
    (show 0 + 1 < 3 by decide) (show [(1 : ℝ), 2].length = 2 ^ 1 from rfl)
  obtain ⟨u, hturn, hu⟩ := hstates (n := 3) (by decide) (.zero 3)
  exact ⟨tree, htree, u, hturn, hu⟩

end Multiplexor

end StatePrep
