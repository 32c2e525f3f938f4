import StatePrep.Proofs.Simplify.Accounting
import StatePrep.Proofs.Synthesis.Calls
import StatePrep.Proofs.Synthesis.Preparation

/-! # When a preparation succeeds

A preparation checks its settings and its input (`Accepted`), and fails with the first check that
does not pass (`Rejected`). After that nothing can fail: at every level half of the amplitudes of
the level before are left, so each multiplexor has an angle for every value of the qubits above its
target, and every call that it comes to is admitted (`exists_disentangler_iff`, `admits_level`).

`prepare_outcome` puts this together. The leaves of a prepared tree are operations as multiplexors
have them (`isPart_of_prepare`), and so gates on qubits of the register if these are distinct
(`wellFormed_of_prepare`). No law of arithmetic is needed. -/

namespace StatePrep

open Multiplexor

variable {α : Type} [Analytic α]

/-! ### Levels -/

theorem length_leftOver_level (tolerance : α) (rest : ℕ) (level : ℕ) :
    ∀ {amps : List (Amplitude α)}, amps.length = 2 ^ (level + rest) →
      (leftOver tolerance level amps).length = 2 ^ rest := by
  induction level with
  | zero =>
    intro amps h
    rwa [Nat.zero_add] at h
  | succ level ih =>
    intro amps h
    rw [Nat.add_right_comm] at h
    exact ih (length_remaining tolerance h)

/-- Both multiplexors that take the qubit at a place of the register out of some amplitudes are
built. -/
def BuildsLevel (tolerance : α) (register : List Qubit) (place : ℕ) (amps : List (Amplitude α)) :
    Prop :=
  (∃ t, toTree ⟨register, .z⟩ place ((disentangle tolerance amps).map BlochAngles.phi) = .ok t) ∧
    ∃ t, toTree ⟨register, .y⟩ place ((disentangle tolerance amps).map BlochAngles.theta) = .ok t

/-- **The disentangler is built if the multiplexors of every level are**, and only then. -/
theorem exists_disentangler_iff {tolerance : α} {register : List Qubit} {count : ℕ} :
    ∀ {place : ℕ} {amps : List (Amplitude α)},
      (∃ r, Preparation.disentangler tolerance register count place amps = .ok r) ↔
        ∀ level < count,
          BuildsLevel tolerance register (place + level) (leftOver tolerance level amps) := by
  induction count with
  | zero =>
    intro place amps
    exact ⟨fun _ level h => absurd h (Nat.not_lt_zero level), fun _ => ⟨_, rfl⟩⟩
  | succ count ih =>
    intro place amps
    have hshift : ∀ level, place + (level + 1) = place + 1 + level := fun level => by omega
    rw [Nat.forall_lt_succ_left]
    constructor
    · rintro ⟨⟨trees, left⟩, h⟩
      obtain ⟨z, y, later, hz, hy, hlater, -⟩ := disentangler_succ_eq_ok_iff.mp h
      refine ⟨⟨⟨z, hz⟩, ⟨y, hy⟩⟩, fun level hlevel => ?_⟩
      rw [hshift]
      exact ih.mp ⟨_, hlater⟩ level hlevel
    · rintro ⟨⟨⟨z, hz⟩, ⟨y, hy⟩⟩, h⟩
      obtain ⟨⟨later, left⟩, hlater⟩ : ∃ r, Preparation.disentangler tolerance register count
          (place + 1) (remaining tolerance amps) = .ok r :=
        ih.mpr fun level hlevel => hshift level ▸ h level hlevel
      exact ⟨_, disentangler_succ_eq_ok_iff.mpr ⟨z, y, later, hz, hy, hlater, rfl⟩⟩

/-- **Every multiplexor of every level is admitted**, if there are as many amplitudes as values of
the register. -/
theorem admits_level (tolerance : α) {amps : List (Amplitude α)} {register : List Qubit}
    (hlen : amps.length = 2 ^ register.length) (axis : Axis) (angle : BlochAngles α → α) {level : ℕ}
    (hlevel : level < register.length) : Admits ⟨register, axis⟩ level
      ((disentangle tolerance (leftOver tolerance level amps)).map angle) := by
  obtain ⟨rest, hrest⟩ := Nat.exists_eq_add_of_lt hlevel
  have hleft : (leftOver tolerance level amps).length = 2 ^ (rest + 1) :=
    length_leftOver_level tolerance (rest + 1) level (by rw [hlen, hrest, Nat.add_assoc])
  have hhalf : 2 ^ (rest + 1) / 2 = 2 ^ rest := by rw [Nat.pow_succ]; omega
  refine admits_iff.mpr ⟨rest, ?_, ?_⟩
  · rw [List.length_map, length_disentangle, hleft, hhalf]
  · exact hrest ▸ Nat.lt_succ_self _

theorem exists_disentangler (tolerance : α) {amps : List (Amplitude α)} {register : List Qubit}
    (hlen : amps.length = 2 ^ register.length) :
    ∃ r, Preparation.disentangler tolerance register register.length 0 amps = .ok r := by
  refine exists_disentangler_iff.mpr fun level hlevel => ?_
  rw [Nat.zero_add]
  exact ⟨exists_toTree_iff.mpr (admits_level tolerance hlen .z BlochAngles.phi hlevel),
    exists_toTree_iff.mpr (admits_level tolerance hlen .y BlochAngles.theta hlevel)⟩

/-! ### Leaves -/

/-- The angle about an axis that a pair asks for. It asks for none about the `x` axis. -/
def BlochAngles.about (p : BlochAngles α) : Axis → α
  | .x => 0
  | .y => p.theta
  | .z => p.phi

/-- **The leaves of the disentangler** are those of the multiplexors about the `y` and the `z` axis
of its levels. -/
theorem exists_level_of_mem_disentangler {tolerance : α} {register : List Qubit} {count : ℕ} :
    ∀ {place : ℕ} {amps left : List (Amplitude α)} {trees : List (GateTree α)},
      Preparation.disentangler tolerance register count place amps = .ok (trees, left) →
        ∀ op ∈ GateTree.flattenAll trees, ∃ level < count, ∃ axis t, axis ≠ .x ∧
          toTree ⟨register, axis⟩ (place + level) ((disentangle tolerance
            (leftOver tolerance level amps)).map fun pair => pair.about axis) = .ok t ∧
          op ∈ t.flatten := by
  induction count with
  | zero =>
    intro place amps left trees h op hop
    obtain ⟨rfl, -⟩ := Prod.mk.inj (Except.ok.inj h)
    cases hop
  | succ count ih =>
    intro place amps left trees h op hop
    obtain ⟨z, y, later, hz, hy, hlater, rfl⟩ := disentangler_succ_eq_ok_iff.mp h
    simp only [GateTree.flattenAll, List.mem_append] at hop
    rcases hop with hop | hop | hop
    · exact ⟨0, Nat.succ_pos count, .z, z, by decide, hz, hop⟩
    · exact ⟨0, Nat.succ_pos count, .y, y, by decide, hy, hop⟩
    · obtain ⟨level, hlevel, axis, t, haxis, ht, hop⟩ := ih hlater op hop
      have hshift : place + (level + 1) = place + 1 + level := by omega
      exact ⟨level + 1, Nat.succ_lt_succ hlevel, axis, t, haxis, hshift ▸ ht, hop⟩

theorem isPart_of_disentangler {tolerance : α} {register : List Qubit} {count place : ℕ}
    {amps left : List (Amplitude α)} {trees : List (GateTree α)}
    (h : Preparation.disentangler tolerance register count place amps = .ok (trees, left)) :
    ∀ op ∈ GateTree.flattenAll trees, IsPart ⟨register, .y⟩ op ∨ IsPart ⟨register, .z⟩ op := by
  intro op hop
  obtain ⟨level, -, axis, t, haxis, ht, hop⟩ := exists_level_of_mem_disentangler h op hop
  have hpart := isPart_of_toTree ht op hop
  cases axis with
  | x => exact absurd rfl haxis
  | y => exact .inl hpart
  | z => exact .inr hpart

variable {s : Settings α} {amps : List (Amplitude α)} {register : List Qubit} {p : Preparation α}

theorem mem_of_mem_keptOperations {trees : List (GateTree α)} {op : Operation α}
    (h : op ∈ keptOperations s trees) : op ∈ GateTree.flattenAll trees := by
  unfold keptOperations at h
  split at h
  · exact List.mem_of_mem_filter ((freeReduce_sublist _).subset h)
  · exact h

/-- **The leaves of a prepared tree** undo leaves of multiplexors about the `y` and the `z` axis,
and so are of the same form. -/
theorem isPart_of_prepare (h : prepare s amps register = .ok p) :
    ∀ op ∈ p.tree.flatten, IsPart ⟨register, .y⟩ op ∨ IsPart ⟨register, .z⟩ op := by
  obtain ⟨-, -, -, -, trees, left, htrees, rfl⟩ := prepare_eq_ok_iff.mp h
  intro op hop
  rw [flatten_tree_ofDisentangler] at hop
  obtain ⟨kept, hkept, rfl⟩ := List.mem_map.mp (List.mem_reverse.mp hop)
  exact (isPart_of_disentangler htrees kept (mem_of_mem_keptOperations hkept)).imp
    IsPart.inverse IsPart.inverse

theorem wellFormed_of_prepare (h : prepare s amps register = .ok p) (hnodup : register.Nodup) :
    ∀ op ∈ p.tree.flatten, op.WellFormed register := by
  intro op hop
  rcases isPart_of_prepare h op hop with hpart | hpart
  · exact hpart.wellFormed hnodup
  · exact hpart.wellFormed hnodup

theorem exists_tree_eq_composite (h : prepare s amps register = .ok p) :
    ∃ parts, p.tree = .composite "initialize" parts := by
  obtain ⟨-, -, -, -, trees, left, -, rfl⟩ := prepare_eq_ok_iff.mp h
  unfold Preparation.ofDisentangler
  dsimp only
  split
  · exact ⟨_, congrArg (GateTree.composite · _) (name_simplify s _)⟩
  · exact ⟨_, rfl⟩

theorem after_le_before_ofDisentangler (width : ℕ) (trees : List (GateTree α))
    (left : List (Amplitude α)) :
    (Preparation.ofDisentangler s width trees left).stats.after ≤
      (Preparation.ofDisentangler s width trees left).stats.before := by
  unfold Preparation.ofDisentangler
  dsimp only
  split
  · exact after_le_before_simplify s _
  · exact le_rfl

/-! ### The checks of the input -/

/-- What a preparation asks of its settings and its input. -/
structure Accepted (s : Settings α) (amps : List (Amplitude α)) (register : List Qubit) : Prop where
  finite : Scalar.isFinite s.tolerance = true
  positive : 0 < s.tolerance
  /-- There is at least one qubit. -/
  qubits : 1 ≤ register.length
  /-- There is an amplitude for each value of the qubits. -/
  length : amps.length = 2 ^ register.length
  weight : s.agree (Amplitude.weight amps) 1 = true

/-- The first check that fails, with the error that tells of it. -/
inductive Rejected (s : Settings α) (amps : List (Amplitude α)) (register : List Qubit) :
    PrepError α → Prop where
  | tolerance (h : ¬ (Scalar.isFinite s.tolerance = true ∧ 0 < s.tolerance)) :
    Rejected s amps register (.tolerance s.tolerance)
  | shape (h : Scalar.isFinite s.tolerance = true ∧ 0 < s.tolerance)
    (hshape : ¬ ∃ n : ℕ, 1 ≤ n ∧ amps.length = 2 ^ n) :
    Rejected s amps register (.shape amps.length)
  | registerSize (h : Scalar.isFinite s.tolerance = true ∧ 0 < s.tolerance) {n : ℕ} (hn : 1 ≤ n)
    (hlen : amps.length = 2 ^ n) (hsize : register.length ≠ n) :
    Rejected s amps register (.registerSize amps.length n register.length)
  | weight (h : Scalar.isFinite s.tolerance = true ∧ 0 < s.tolerance) {n : ℕ} (hn : 1 ≤ n)
    (hlen : amps.length = 2 ^ n) (hsize : register.length = n)
    (hweight : s.agree (Amplitude.weight amps) 1 = false) :
    Rejected s amps register (.weight (Amplitude.weight amps))

theorem isUsable_iff_finite_pos :
    s.isUsable = true ↔ Scalar.isFinite s.tolerance = true ∧ 0 < s.tolerance := by
  rw [Settings.isUsable, Bool.and_eq_true, decide_eq_true_eq]

theorem shape_iff {length : ℕ} :
    (decide (length < 2) || !isPowerOfTwo length) = false ↔ ∃ n : ℕ, 1 ≤ n ∧ length = 2 ^ n := by
  rw [not_shape_iff]
  constructor
  · exact fun h => ⟨_, h⟩
  · rintro ⟨n, hn, rfl⟩
    rw [Nat.log2_two_pow]
    exact ⟨hn, rfl⟩

/-- **Accepted input is prepared**, and only such input. -/
theorem exists_prepare_iff : (∃ p, prepare s amps register = .ok p) ↔ Accepted s amps register := by
  constructor
  · rintro ⟨p, h⟩
    obtain ⟨husable, hqubits, hlen, hweight, -⟩ := prepare_eq_ok_iff.mp h
    obtain ⟨hfinite, hpos⟩ := isUsable_iff_finite_pos.mp husable
    exact ⟨hfinite, hpos, hqubits, hlen, hweight⟩
  · intro h
    obtain ⟨⟨trees, left⟩, htrees⟩ := exists_disentangler s.tolerance h.length
    exact ⟨_, prepare_eq_ok_iff.mpr ⟨isUsable_iff_finite_pos.mpr ⟨h.finite, h.positive⟩, h.qubits,
      h.length, h.weight, trees, left, htrees, rfl⟩⟩

theorem prepare_of_usable (h : s.isUsable = true) : prepare s amps register = (do
    let width ← Preparation.checkInput s amps register
    let (multiplexors, left) ←
      (Preparation.disentangler s.tolerance register width 0 amps).mapError .multiplexor
    return Preparation.ofDisentangler s width multiplexors left) := by
  rw [prepare, check_eq_ok_iff.mpr h]
  rfl

theorem prepare_of_checkInput_eq_error (husable : s.isUsable = true) {e : PrepError α}
    (h : Preparation.checkInput s amps register = .error e) :
    prepare s amps register = .error e := by
  rw [prepare_of_usable husable, h]
  rfl

theorem checkInput_of_shape {n : ℕ} (hn : 1 ≤ n) (hlen : amps.length = 2 ^ n) :
    Preparation.checkInput s amps register =
      if register.length ≠ n then .error (.registerSize amps.length n register.length)
      else if !s.agree (Amplitude.weight amps) 1 then .error (.weight (Amplitude.weight amps))
      else .ok n := by
  have hlog : amps.length.log2 = n := by rw [hlen, Nat.log2_two_pow]
  have hshape := shape_iff.mpr ⟨n, hn, hlen⟩
  unfold Preparation.checkInput
  dsimp only
  rw [hlog, hshape]
  rfl

theorem Rejected.prepare_eq_error {e : PrepError α} (h : Rejected s amps register e) :
    prepare s amps register = .error e := by
  cases h with
  | tolerance h =>
    have hcheck : s.check = .error (.tolerance s.tolerance) :=
      if_neg (isUsable_iff_finite_pos.not.mpr h)
    rw [prepare, hcheck]
    rfl
  | shape h hshape =>
    refine prepare_of_checkInput_eq_error (isUsable_iff_finite_pos.mpr h) (if_pos ?_)
    exact Bool.not_eq_false _ ▸ shape_iff.not.mpr hshape
  | registerSize h hn hlen hsize =>
    refine prepare_of_checkInput_eq_error (isUsable_iff_finite_pos.mpr h) ?_
    rw [checkInput_of_shape hn hlen, if_pos hsize]
  | weight h hn hlen hsize hweight =>
    refine prepare_of_checkInput_eq_error (isUsable_iff_finite_pos.mpr h) ?_
    rw [checkInput_of_shape hn hlen, if_neg (not_not.mpr hsize), hweight]
    rfl

theorem accepted_or_rejected (s : Settings α) (amps : List (Amplitude α)) (register : List Qubit) :
    Accepted s amps register ∨ ∃ e, Rejected s amps register e := by
  by_cases h : Scalar.isFinite s.tolerance = true ∧ 0 < s.tolerance
  · by_cases hshape : ∃ n : ℕ, 1 ≤ n ∧ amps.length = 2 ^ n
    · obtain ⟨n, hn, hlen⟩ := hshape
      by_cases hsize : register.length = n
      · subst hsize
        cases hweight : s.agree (Amplitude.weight amps) 1
        · exact .inr ⟨_, .weight h hn hlen rfl hweight⟩
        · exact .inl ⟨h.1, h.2, hn, hlen, hweight⟩
      · exact .inr ⟨_, .registerSize h hn hlen hsize⟩
    · exact .inr ⟨_, .shape h hshape⟩
  · exact .inr ⟨_, .tolerance h⟩

/-- **The error of a preparation** is that of the first check that fails. -/
theorem prepare_eq_error_iff {e : PrepError α} :
    prepare s amps register = .error e ↔ Rejected s amps register e := by
  constructor
  · intro h
    rcases accepted_or_rejected s amps register with hacc | ⟨e', he'⟩
    · obtain ⟨p, hp⟩ := exists_prepare_iff.mpr hacc
      cases h.symm.trans hp
    · obtain rfl := Except.error.inj (h.symm.trans he'.prepare_eq_error)
      exact he'
  · exact Rejected.prepare_eq_error

/-- **The outcome of a preparation.** It succeeds exactly on accepted input, and otherwise gives the
error of the first check that fails. When it succeeds, every call of every multiplexor of every
level has passed its checks, the levels leave one amplitude, and simplification leaves no more gates
than there were. -/
theorem prepare_outcome (s : Settings α) (amps : List (Amplitude α)) (register : List Qubit) :
    ((∃ p, prepare s amps register = .ok p) ↔ Accepted s amps register) ∧
      (∀ e, prepare s amps register = .error e ↔ Rejected s amps register e) ∧
      ∀ p, prepare s amps register = .ok p →
        (∀ level < register.length,
          let pairs := disentangle s.tolerance (leftOver s.tolerance level amps)
          (∀ angles, Calls (pairs.map BlochAngles.phi) angles →
            Admits ⟨register, .z⟩ level angles) ∧
          ∀ angles, Calls (pairs.map BlochAngles.theta) angles →
            Admits ⟨register, .y⟩ level angles) ∧
        (∃ trees left,
          Preparation.disentangler s.tolerance register register.length 0 amps =
            .ok (trees, [left]) ∧
          p = Preparation.ofDisentangler s register.length trees [left]) ∧
        p.stats.after ≤ p.stats.before := by
  refine ⟨exists_prepare_iff, fun e => prepare_eq_error_iff, fun p h => ?_⟩
  obtain ⟨-, -, hlen, -, trees, left, htrees, rfl⟩ := prepare_eq_ok_iff.mp h
  have hleft : left.length = 1 := by
    rw [eq_leftOver_of_disentangler htrees]
    exact length_leftOver s.tolerance _ amps hlen
  obtain ⟨a, rfl⟩ := List.length_eq_one_iff.mp hleft
  refine ⟨fun level hlevel => ⟨fun angles hcalls => ?_, fun angles hcalls => ?_⟩,
    ⟨trees, a, htrees, rfl⟩, after_le_before_ofDisentangler _ _ _⟩
  · exact (admits_level s.tolerance hlen .z BlochAngles.phi hlevel).of_calls hcalls
  · exact (admits_level s.tolerance hlen .y BlochAngles.theta hlevel).of_calls hcalls

theorem accepted_uniform (simplify : Bool) (p q : Qubit) :
    Accepted ⟨1 / 8, simplify⟩ (List.replicate 4 (⟨1 / 2, 0⟩ : Amplitude ℝ)) [p, q] := by
  have hweight : Amplitude.weight (List.replicate 4 (⟨1 / 2, 0⟩ : Amplitude ℝ)) = 1 := by
    rw [Amplitude.weight_eq_sum, List.map_replicate, List.sum_replicate,
      Amplitude.toComplex_mk_zero, Complex.norm_real]
    norm_num
  refine ⟨rfl, by norm_num, one_le_two, rfl, Settings.agree_iff.mpr ?_⟩
  rw [hweight]
  norm_num

/-- Two qubits are prepared, and the call for the half-differences of the first level has passed its
checks. Of three amplitudes without a register the shape is what is reported. -/
theorem prepare_outcome_uniform :
    let amps : List (Amplitude ℝ) := List.replicate 4 ⟨1 / 2, 0⟩
    (∃ p, prepare ⟨1 / 8, true⟩ amps [⟨3⟩, ⟨1⟩] = .ok p ∧
      Admits ⟨[⟨3⟩, ⟨1⟩], .y⟩ 0
        (halfDifferences ((disentangle (1 / 8) amps).map BlochAngles.theta)) ∧
      p.stats.after ≤ p.stats.before) ∧
    prepare ⟨1, true⟩ [(1 : Amplitude ℝ), 1, 1] [] = .error (.shape 3) := by
  intro amps
  have hshape : ¬ ∃ n : ℕ, 1 ≤ n ∧ [(1 : Amplitude ℝ), 1, 1].length = 2 ^ n := by
    rintro ⟨n, hn, hlen⟩
    have heven : 2 ∣ 2 ^ n := dvd_pow_self 2 (by omega)
    rw [← hlen] at heven
    exact absurd heven (by decide)
  obtain ⟨hsucceeds, -, hsuccess⟩ := prepare_outcome ⟨1 / 8, true⟩ amps [⟨3⟩, ⟨1⟩]
  obtain ⟨p, hp⟩ := hsucceeds.mpr (accepted_uniform true ⟨3⟩ ⟨1⟩)
  obtain ⟨hcalls, -, hstats⟩ := hsuccess p hp
  obtain ⟨-, hfails, -⟩ := prepare_outcome ⟨1, true⟩ [(1 : Amplitude ℝ), 1, 1] []
  exact ⟨⟨p, hp, (hcalls 0 (by decide)).2 _ (.high Nat.one_lt_two (.self _)), hstats⟩,
    (hfails _).mpr (.shape ⟨rfl, one_pos⟩ hshape)⟩

end StatePrep
