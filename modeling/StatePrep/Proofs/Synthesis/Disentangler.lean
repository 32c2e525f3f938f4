import StatePrep.Proofs.State.Placed
import StatePrep.Proofs.Synthesis.BlochAngles
import StatePrep.Proofs.Synthesis.Multiplexor

/-! # Disentangling a register

One qubit is disentangled by a multiplexor about the `z` axis and one about the `y` axis
(`collapse`), a register by one qubit after the other (`collapseAll`); `disentangler_eq` says that
the trees built do that. What is known of all levels is proved by induction from what one level
builds (`disentangler_succ_eq_ok_iff`).

If every pair of amplitudes that is met is clear, disentangling takes the amplitudes off the
register, and a single factor is left (`collapseAll_place`), which has their weight
(`norm_leftOver_sq`). Without this assumption short pairs are lost on the way. The factor then has
the weight that is not lost with them (`norm_leftOver_sq_add_lostWeight`), and the state reached
differs by at most the tolerance for each pair (`norm_collapseAll_place_sub_le`). -/

namespace StatePrep

open Operation Multiplexor

variable {tolerance : ℝ} {amps : List (Amplitude ℝ)}

/-! ### The maps -/

/-- What disentangling the lowest qubit of a register does, with the other qubits above it. -/
noncomputable def collapse (tolerance : ℝ) (q : Qubit) (above : List Qubit)
    (amps : List (Amplitude ℝ)) : Module.End ℂ Wave :=
  turn .y q.bit (chosen above ((disentangle tolerance amps).map BlochAngles.theta)) *
    turn .z q.bit (chosen above ((disentangle tolerance amps).map BlochAngles.phi))

/-- What disentangling the qubits of a register does, one after the other. -/
noncomputable def collapseAll (tolerance : ℝ) : List Qubit → List (Amplitude ℝ) →
    Module.End ℂ Wave
  | [], _ => 1
  | q :: above, amps =>
    collapseAll tolerance above (remaining tolerance amps) * collapse tolerance q above amps

/-- The amplitudes that are left when a number of qubits has been disentangled. -/
def leftOver {α : Type} [Analytic α] (tolerance : α) : ℕ → List (Amplitude α) → List (Amplitude α)
  | 0, amps => amps
  | count + 1, amps => leftOver tolerance count (remaining tolerance amps)

theorem length_leftOver {α : Type} [Analytic α] (tolerance : α) (count : ℕ) :
    ∀ amps : List (Amplitude α), amps.length = 2 ^ count →
      (leftOver tolerance count amps).length = 1 := by
  induction count with
  | zero => exact fun amps h => h
  | succ count ih =>
    intro amps h
    exact ih _ (length_remaining tolerance h)

/-- **One level of a disentangler**: both multiplexors of the level and then the later levels. -/
theorem disentangler_succ_eq_ok_iff {α : Type} [Analytic α] {tolerance : α} {register : List Qubit}
    {count level : ℕ} {amps left : List (Amplitude α)} {trees : List (GateTree α)} :
    Preparation.disentangler tolerance register (count + 1) level amps = .ok (trees, left) ↔
      ∃ z y later,
        toTree ⟨register, .z⟩ level ((disentangle tolerance amps).map BlochAngles.phi) = .ok z ∧
        toTree ⟨register, .y⟩ level ((disentangle tolerance amps).map BlochAngles.theta) = .ok y ∧
        Preparation.disentangler tolerance register count (level + 1) (remaining tolerance amps) =
          .ok (later, left) ∧
        trees = z :: y :: later := by
  rw [Preparation.disentangler]
  constructor
  · intro h
    obtain ⟨z, hz, h⟩ := bind_eq_ok_iff.mp h
    obtain ⟨y, hy, h⟩ := bind_eq_ok_iff.mp h
    obtain ⟨⟨later, left'⟩, hlater, h⟩ := bind_eq_ok_iff.mp h
    obtain ⟨rfl, rfl⟩ := Prod.mk.inj (Except.ok.inj h)
    exact ⟨z, y, later, hz, hy, hlater, rfl⟩
  · rintro ⟨z, y, later, hz, hy, hlater, rfl⟩
    exact bind_eq_ok_iff.mpr ⟨z, hz, bind_eq_ok_iff.mpr ⟨y, hy,
      bind_eq_ok_iff.mpr ⟨_, hlater, rfl⟩⟩⟩

theorem eq_leftOver_of_disentangler {α : Type} [Analytic α] {tolerance : α} {register : List Qubit}
    {count level : ℕ} {amps left : List (Amplitude α)} {trees : List (GateTree α)}
    (h : Preparation.disentangler tolerance register count level amps = .ok (trees, left)) :
    left = leftOver tolerance count amps := by
  induction count generalizing level amps trees with
  | zero => exact (Prod.mk.inj (Except.ok.inj h)).2.symm
  | succ count ih =>
    obtain ⟨-, -, later, -, -, hlater, -⟩ := disentangler_succ_eq_ok_iff.mp h
    exact ih hlater

/-- **The trees of the disentangler** are built, fit wherever the register does, and act as the maps
above. -/
theorem disentangler_eq {register : List Qubit} (hnodup : register.Nodup) (tolerance : ℝ)
    (count : ℕ) : ∀ (level : ℕ) (amps : List (Amplitude ℝ)), register.length = level + count →
      amps.length = 2 ^ count →
        ∃ trees, Preparation.disentangler tolerance register count level amps =
            .ok (trees, leftOver tolerance count amps) ∧
          (∀ n, (∀ q ∈ register, q.bit < n) → ∀ op ∈ GateTree.flattenAll trees, op.Fits n) ∧
          actAll (GateTree.flattenAll trees) =
            collapseAll tolerance (register.drop level) amps := by
  induction count with
  | zero =>
    intro level amps hlevel _
    refine ⟨[], rfl, ?_, ?_⟩
    · intro n _ op hop
      cases hop
    · rw [List.drop_eq_nil_of_le (by omega)]
      rfl
  | succ count ih =>
    intro level amps hlevel hlen
    have hplace : level < register.length := by omega
    have hhalf : amps.length / 2 = 2 ^ count := by rw [hlen, Nat.pow_succ]; omega
    have hangles : ∀ f : BlochAngles ℝ → ℝ,
        ((disentangle tolerance amps).map f).length = 2 ^ count := by
      intro f
      rw [List.length_map, length_disentangle, hhalf]
    obtain ⟨z, hz, hzfits, hzact⟩ := exists_toTree_outermost hnodup
      (show Axis.z ≠ .x by decide) level (by omega) (hangles BlochAngles.phi)
    obtain ⟨y, hy, hyfits, hyact⟩ := exists_toTree_outermost hnodup
      (show Axis.y ≠ .x by decide) level (by omega) (hangles BlochAngles.theta)
    obtain ⟨later, hlater, hlaterfits, hlateract⟩ := ih (level + 1) (remaining tolerance amps)
      (by omega) (length_remaining tolerance hlen)
    refine ⟨z :: y :: later, ?_, ?_, ?_⟩
    · exact disentangler_succ_eq_ok_iff.mpr ⟨z, y, later, hz, hy, hlater, rfl⟩
    · intro n hn op hop
      simp only [GateTree.flattenAll, List.mem_append] at hop
      rcases hop with hop | hop | hop
      · exact hzfits n hn op hop
      · exact hyfits n hn op hop
      · exact hlaterfits n hn op hop
    · rw [GateTree.flattenAll, GateTree.flattenAll, actAll_append, actAll_append, hzact, hyact,
        hlateract, List.drop_eq_getElem_cons hplace, collapseAll, collapse, mul_assoc]

/-! ### One qubit -/

/-- The angles of the way back for the pair at an index. -/
noncomputable def pairAt (tolerance : ℝ) (amps : List (Amplitude ℝ)) (r : ℕ) : BlochAngles ℝ :=
  (BlochAngles.ofPair tolerance (amps.getD (2 * r) 0) (amps.getD (2 * r + 1) 0)).opposite

theorem getD_map_disentangle {β : Type} (f : BlochAngles ℝ → β) (d : β) {r : ℕ}
    (h : 2 * r + 1 < amps.length) :
    ((disentangle tolerance amps).map f).getD r d = f (pairAt tolerance amps r) := by
  rw [List.getD_eq_getElem?_getD, List.getElem?_map, getElem?_disentangle tolerance h]
  rfl

/-- **Collapsing every pair takes a qubit out of the register.** The amplitudes `psi` need not be
those that the angles come from. -/
theorem collapse_place {q : Qubit} {above : List Qubit} (hq : q ∉ above)
    (hlen : amps.length = 2 ^ (above.length + 1)) (psi : ℕ → ℂ)
    (hpsi : ∀ r, 2 * r + 1 < amps.length →
      (pairAt tolerance amps r).Collapses (psi (2 * r)) (psi (2 * r + 1)))
    {chi : Wave} (hchi : ∀ i, i.testBit q.bit = true → chi i = 0) :
    collapse tolerance q above amps (place (q :: above) psi chi) =
      place above (amplitudeAt (remaining tolerance amps)) chi := by
  have hne : ∀ p ∈ above, q.bit ≠ p.bit := by
    intro p hp h
    exact hq (Qubit.bit_inj.mp h ▸ hp)
  funext i
  have hr : 2 * readRegister above i + 1 < amps.length := by
    have := readRegister_lt above i
    rw [hlen, Nat.pow_succ]
    omega
  have hpair := hpsi _ hr
  have hremaining : amplitudeAt (remaining tolerance amps) (readRegister above i) =
      (pairAt tolerance amps (readRegister above i)).remaining.toComplex := by
    rw [amplitudeAt, remaining, getD_map_disentangle _ _ hr]
  -- the two amplitudes of the pair that the index belongs to, after the rotation about `z`
  have hz : ∀ j, readRegister above j = readRegister above i →
      turn .z q.bit (chosen above ((disentangle tolerance amps).map BlochAngles.phi))
        (place (q :: above) psi chi) j =
          (Axis.z.matrix (pairAt tolerance amps (readRegister above i)).phi).stay
            (j.testBit q.bit) * (psi ((j.testBit q.bit).toNat + 2 * readRegister above i) *
              chi (clearRegister (q :: above) j)) := by
    intro j hj
    rw [turn, mix_apply, cross_rz, zero_mul, add_zero, chosen, hj, getD_map_disentangle _ _ hr,
      place, readRegister, hj]
  rw [collapse, Module.End.mul_apply, turn, mix_apply, hz i rfl,
    hz _ (readRegister_partner hne i), testBit_partner_self, clearRegister_partner (by simp),
    chosen, getD_map_disentangle _ _ hr, place, hremaining]
  cases hbit : i.testBit q.bit
  · rw [clearRegister_cons_of_zero hbit, ← hpair.first, Bool.not_false, Bool.toNat_true,
      Bool.toNat_false, Nat.zero_add, Nat.add_comm 1]
    ring
  · have hzero : chi (clearRegister above i) = 0 := by
      refine hchi _ ?_
      rw [testBit_clearRegister, hbit, Bool.true_and, List.all_eq_true]
      exact fun p hp => bne_iff_ne.mpr (Ne.symm (hne p hp))
    rw [hzero, mul_zero, Bool.not_true, Bool.toNat_true, Bool.toNat_false, Nat.zero_add,
      Nat.add_comm 1]
    linear_combination chi (clearRegister (q :: above) i) * hpair.second

/-! ### Clear pairs -/

theorem mem_neighbours {r : ℕ} (h : 2 * r + 1 < amps.length) :
    (amps.getD (2 * r) 0, amps.getD (2 * r + 1) 0) ∈ neighbours amps :=
  List.mem_of_getElem? (getElem?_neighbours 0 amps h)

theorem collapses_of_isClear (hpos : 0 < tolerance)
    (hclear : ∀ p ∈ neighbours amps, IsClear tolerance p) {r : ℕ} (h : 2 * r + 1 < amps.length) :
    (pairAt tolerance amps r).Collapses (amplitudeAt amps (2 * r))
      (amplitudeAt amps (2 * r + 1)) := by
  by_cases hlong : tolerance ≤ pairLength (amps.getD (2 * r) 0) (amps.getD (2 * r + 1) 0)
  · exact BlochAngles.collapses_opposite_ofPair hpos hlong
  · have hshort := BlochAngles.collapses_of_short (not_le.mp hlong)
    rcases hclear _ (mem_neighbours h) with hzero | hlong'
    · obtain ⟨hfirst, hsecond⟩ := Prod.mk.inj hzero
      unfold amplitudeAt
      rw [hfirst, hsecond, Amplitude.toComplex_zero]
      exact hshort
    · exact absurd hlong' hlong

/-- **Disentangling takes clear amplitudes off the register**, and leaves one factor. -/
theorem collapseAll_place (hpos : 0 < tolerance) {register : List Qubit}
    (hnodup : register.Nodup) {chi : Wave}
    (hchi : ∀ q ∈ register, ∀ i, i.testBit q.bit = true → chi i = 0) :
    ∀ {amps : List (Amplitude ℝ)}, amps.length = 2 ^ register.length →
      (∀ p ∈ pairsMet tolerance register.length amps, IsClear tolerance p) →
        collapseAll tolerance register amps (place register (amplitudeAt amps) chi) =
          amplitudeAt (leftOver tolerance register.length amps) 0 • chi := by
  induction register with
  | nil => exact fun _ _ => place_nil _ _
  | cons q above ih =>
    intro amps hlen hclear
    rw [List.length_cons] at hlen hclear
    obtain ⟨hq, hnodup⟩ := List.nodup_cons.mp hnodup
    rw [collapseAll, Module.End.mul_apply, collapse_place hq hlen _
      (fun r hr => collapses_of_isClear hpos
        (fun p hp => hclear p (List.mem_append_left _ hp)) hr) (hchi q (by simp))]
    exact ih hnodup (fun p hp => hchi p (by simp [hp])) (length_remaining tolerance hlen)
      fun p hp => hclear p (List.mem_append_right _ hp)

/-- **Where the weight goes**: into the factor that is left and the short pairs met. -/
theorem norm_leftOver_sq_add_lostWeight (tolerance : ℝ) (count : ℕ) :
    ∀ {amps : List (Amplitude ℝ)}, amps.length = 2 ^ count →
      ‖amplitudeAt (leftOver tolerance count amps) 0‖ ^ 2 +
        ((pairsMet tolerance count amps).map (lostWeight tolerance)).sum =
          Amplitude.weight amps := by
  induction count with
  | zero =>
    intro amps hlen
    obtain ⟨a, rfl⟩ := List.length_eq_one_iff.mp hlen
    rw [Amplitude.weight_eq_sum]
    rfl
  | succ count ih =>
    intro amps hlen
    have hremaining := length_remaining tolerance hlen
    rw [Nat.pow_succ] at hlen
    rw [leftOver, pairsMet, List.map_append, List.sum_append, add_left_comm, ih hremaining,
      add_comm, weight_remaining_add_lostWeight tolerance (by omega)]

theorem norm_leftOver_sq {count : ℕ} (hlen : amps.length = 2 ^ count)
    (h : ∀ p ∈ pairsMet tolerance count amps, IsClear tolerance p) :
    ‖amplitudeAt (leftOver tolerance count amps) 0‖ ^ 2 = Amplitude.weight amps := by
  rw [← norm_leftOver_sq_add_lostWeight tolerance count hlen, sum_lostWeight_of_isClear h,
    add_zero]

theorem length_pairsMet {α : Type} [Analytic α] (tolerance : α) (count : ℕ) :
    ∀ {amps : List (Amplitude α)}, amps.length = 2 ^ count →
      (pairsMet tolerance count amps).length + 1 = 2 ^ count := by
  induction count with
  | zero => exact fun _ => rfl
  | succ count ih =>
    intro amps hlen
    have hlater := ih (length_remaining tolerance hlen)
    rw [pairsMet, List.length_append, length_neighbours, hlen, Nat.pow_succ]
    omega

/-! ### Short pairs -/

open Classical in
/-- The amplitudes of the pairs that are shorter than the tolerance. -/
noncomputable def lost (tolerance : ℝ) (amps : List (Amplitude ℝ)) (j : ℕ) : ℂ :=
  if pairLength (amps.getD (2 * (j / 2)) 0) (amps.getD (2 * (j / 2) + 1) 0) < tolerance then
    amplitudeAt amps j
  else 0

theorem collapses_sub_lost (hpos : 0 < tolerance) (r : ℕ) :
    (pairAt tolerance amps r).Collapses (amplitudeAt amps (2 * r) - lost tolerance amps (2 * r))
      (amplitudeAt amps (2 * r + 1) - lost tolerance amps (2 * r + 1)) := by
  have heven : 2 * r / 2 = r := by omega
  have hodd : (2 * r + 1) / 2 = r := by omega
  unfold lost
  rw [heven, hodd]
  by_cases hshort : pairLength (amps.getD (2 * r) 0) (amps.getD (2 * r + 1) 0) < tolerance
  · rw [if_pos hshort, if_pos hshort, sub_self, sub_self]
    exact BlochAngles.collapses_of_short hshort
  · rw [if_neg hshort, if_neg hshort, sub_zero, sub_zero]
    exact BlochAngles.collapses_opposite_ofPair hpos (not_lt.mp hshort)

theorem sum_range_two_mul (f : ℕ → ℝ) (m : ℕ) : ∑ j ∈ Finset.range (2 * m), f j =
    ∑ r ∈ Finset.range m, (f (2 * r) + f (2 * r + 1)) := by
  induction m with
  | zero => rfl
  | succ m ih =>
    rw [Nat.mul_succ, Finset.sum_range_succ, Finset.sum_range_succ, ih, Finset.sum_range_succ,
      add_assoc]

theorem norm_place_lost_le (hpos : 0 < tolerance) (q : Qubit) (above : List Qubit) (n : ℕ) :
    ‖below n (place (q :: above) (lost tolerance amps) ground)‖ ≤
      2 ^ above.length * tolerance := by
  have hpair : ∀ r, ‖lost tolerance amps (2 * r)‖ ^ 2 + ‖lost tolerance amps (2 * r + 1)‖ ^ 2 ≤
      tolerance ^ 2 := by
    intro r
    have heven : 2 * r / 2 = r := by omega
    have hodd : (2 * r + 1) / 2 = r := by omega
    unfold lost
    rw [heven, hodd]
    split
    · next hshort =>
      rw [amplitudeAt, amplitudeAt, ← pairLength_sq]
      exact pow_le_pow_left₀ (Real.sqrt_nonneg _) hshort.le 2
    · rw [norm_zero]
      nlinarith
  have hsq : ‖below n (place (q :: above) (lost tolerance amps) ground)‖ ^ 2 ≤
      (2 ^ above.length * tolerance) ^ 2 := by
    refine (norm_place_ground_sq_le _ _ n).trans ?_
    rw [List.length_cons, Nat.pow_succ, Nat.mul_comm, sum_range_two_mul]
    refine (Finset.sum_le_card_nsmul _ _ _ fun r _ => hpair r).trans ?_
    rw [Finset.card_range, nsmul_eq_mul, mul_pow]
    push_cast
    have hone : (1 : ℝ) ≤ 2 ^ above.length := one_le_pow₀ (by norm_num)
    exact mul_le_mul_of_nonneg_right (le_self_pow₀ hone two_ne_zero) (sq_nonneg tolerance)
  exact (sq_le_sq₀ (norm_nonneg _) (by positivity)).mp hsq

theorem norm_collapse {q : Qubit} {above : List Qubit} (hq : q ∉ above) {n : ℕ} (hn : q.bit < n)
    (f : Wave) : ‖below n (collapse tolerance q above amps f)‖ = ‖below n f‖ := by
  have hne : ∀ p ∈ above, q.bit ≠ p.bit := by
    intro p hp h
    exact hq (Qubit.bit_inj.mp h ▸ hp)
  rw [collapse, Module.End.mul_apply, norm_turn hn (ignores_chosen hne _),
    norm_turn hn (ignores_chosen hne _)]

theorem norm_collapseAll (tolerance : ℝ) {register : List Qubit} (hnodup : register.Nodup) {n : ℕ}
    (hn : ∀ q ∈ register, q.bit < n) : ∀ (amps : List (Amplitude ℝ)) (f : Wave),
      ‖below n (collapseAll tolerance register amps f)‖ = ‖below n f‖ := by
  induction register with
  | nil => exact fun _ _ => rfl
  | cons q above ih =>
    intro amps f
    obtain ⟨hq, hnodup⟩ := List.nodup_cons.mp hnodup
    rw [collapseAll, Module.End.mul_apply, ih hnodup fun p hp => hn p (by simp [hp]),
      norm_collapse hq (hn q (by simp))]

/-- Disentangling one qubit reaches the amplitudes that are left, but for what is lost. -/
theorem norm_collapse_place_sub_le (hpos : 0 < tolerance) {q : Qubit} {above : List Qubit}
    (hq : q ∉ above) (hlen : amps.length = 2 ^ (above.length + 1)) {n : ℕ} (hn : q.bit < n) :
    ‖below n (collapse tolerance q above amps (place (q :: above) (amplitudeAt amps) ground)) -
        below n (place above (amplitudeAt (remaining tolerance amps)) ground)‖ ≤
      2 ^ above.length * tolerance := by
  have hground : ∀ i : ℕ, i.testBit q.bit = true → ground i = 0 := by
    intro i hi
    refine if_neg ?_
    rintro rfl
    simp at hi
  have hkept := collapse_place hq hlen (fun j => amplitudeAt amps j - lost tolerance amps j)
    (fun r _ => collapses_sub_lost hpos r) hground
  have hsplit : place (q :: above) (amplitudeAt amps) ground =
      place (q :: above) (fun j => amplitudeAt amps j - lost tolerance amps j) ground +
        place (q :: above) (lost tolerance amps) ground := by
    rw [← place_add]
    simp only [sub_add_cancel]
  rw [hsplit, map_add, hkept, map_add, add_sub_cancel_left, norm_collapse hq hn]
  exact norm_place_lost_le hpos q above n

/-- **Disentangling any amplitudes** reaches a factor times the ground state up to the tolerance for
each pair met. What one qubit adds to the error is carried along by the others unchanged. -/
theorem norm_collapseAll_place_sub_le (hpos : 0 < tolerance) {register : List Qubit}
    (hnodup : register.Nodup) {n : ℕ} (hn : ∀ q ∈ register, q.bit < n) :
    ∀ {amps : List (Amplitude ℝ)}, amps.length = 2 ^ register.length →
      ‖below n (collapseAll tolerance register amps (place register (amplitudeAt amps) ground)) -
          below n (amplitudeAt (leftOver tolerance register.length amps) 0 • ground)‖ ≤
        (2 ^ register.length - 1) * tolerance := by
  induction register with
  | nil =>
    intro amps _
    rw [collapseAll, Module.End.one_apply, place_nil]
    simp [leftOver]
  | cons q above ih =>
    intro amps hlen
    rw [List.length_cons] at hlen ⊢
    obtain ⟨hq, hnodup⟩ := List.nodup_cons.mp hnodup
    have hremaining := length_remaining tolerance hlen
    have habove : ∀ p ∈ above, p.bit < n := fun p hp => hn p (by simp [hp])
    have hfirst := norm_collapse_place_sub_le hpos hq hlen (hn q (by simp))
    have hlater := ih hnodup habove hremaining
    rw [← map_sub, ← norm_collapseAll tolerance hnodup habove
      (remaining tolerance amps), map_sub, map_sub] at hfirst
    have htriangle := norm_sub_le_norm_sub_add_norm_sub
      (below n (collapseAll tolerance above (remaining tolerance amps)
        (collapse tolerance q above amps (place (q :: above) (amplitudeAt amps) ground))))
      (below n (collapseAll tolerance above (remaining tolerance amps)
        (place above (amplitudeAt (remaining tolerance amps)) ground)))
      (below n (amplitudeAt (leftOver tolerance (above.length + 1) amps) 0 • ground))
    rw [collapseAll, Module.End.mul_apply, pow_succ]
    rw [leftOver] at htriangle ⊢
    linarith

end StatePrep
