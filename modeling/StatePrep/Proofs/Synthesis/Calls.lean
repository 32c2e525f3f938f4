import StatePrep.Proofs.Circuit.Operands
import StatePrep.Proofs.Synthesis.Ladder

/-! # The calls of a multiplexor

A multiplexor of more than one angle is put together from those of the half-sums and of the
half-differences, and so on down to single angles (`Calls`). Every call checks the number of its
angles and finds its target and its highest control in the register (`Admits`).

The checks of the first call are enough (`Admits.of_calls`): with every level the number of angles
halves and the highest control is the next one below. So a multiplexor is built if the first call is
admitted (`exists_toTree_iff`), and its leaves stay inside the register, a control being above its
target (`isPart_of_toTree`). -/

namespace StatePrep

namespace Multiplexor

variable {α : Type} {m : Multiplexor} {bottom : ℕ} {angles inner : List α}

/-! ### Calls -/

/-- The checks that one call makes. -/
structure Admits (m : Multiplexor) (bottom : ℕ) (angles : List α) : Prop where
  /-- The number of angles is a power of two. -/
  angleCount : isPowerOfTwo angles.length = true
  /-- The target is in the register. -/
  target : bottom < m.register.length
  /-- The highest control, if there is one, is in the register. -/
  control : 1 < angles.length → bottom + angles.length.log2 < m.register.length

theorem admits_iff : m.Admits bottom angles ↔
    ∃ k : ℕ, angles.length = 2 ^ k ∧ bottom + k < m.register.length := by
  constructor
  · intro h
    obtain ⟨k, hk⟩ := isPowerOfTwo_iff.mp h.angleCount
    refine ⟨k, hk, ?_⟩
    rcases Nat.eq_zero_or_pos k with rfl | hpos
    · exact h.target
    · have hlen : 1 < angles.length := hk ▸ Nat.one_lt_two_pow hpos.ne'
      have hcontrol := h.control hlen
      rwa [hk, Nat.log2_two_pow] at hcontrol
  · rintro ⟨k, hk, hfits⟩
    refine ⟨isPowerOfTwo_iff.mpr ⟨k, hk⟩, by omega, ?_⟩
    intro _
    rwa [hk, Nat.log2_two_pow]

theorem Admits.exists_control (h : m.Admits bottom angles) (hmany : 1 < angles.length) :
    ∃ k : ℕ, angles.length = 2 ^ (k + 1) ∧ bottom + (k + 1) < m.register.length := by
  obtain ⟨k, hk, hfits⟩ := admits_iff.mp h
  cases k with
  | zero =>
    rw [hk, Nat.pow_zero] at hmany
    omega
  | succ k => exact ⟨k, hk, hfits⟩

theorem Admits.half (h : m.Admits bottom angles) (hmany : 1 < angles.length)
    (hinner : inner.length = angles.length / 2) : m.Admits bottom inner := by
  obtain ⟨k, hk, hfits⟩ := h.exists_control hmany
  have hlen : inner.length = 2 ^ k := by rw [hinner, hk, Nat.pow_succ]; omega
  exact admits_iff.mpr ⟨k, hlen, by omega⟩

variable [Scalar α]

/-- Building the multiplexor of the first angles calls for that of the second ones. -/
inductive Calls : List α → List α → Prop where
  | self (angles : List α) : Calls angles angles
  | low {angles inner : List α} (h : 1 < angles.length) (hinner : Calls (halfSums angles) inner) :
    Calls angles inner
  | high {angles inner : List α} (h : 1 < angles.length)
    (hinner : Calls (halfDifferences angles) inner) : Calls angles inner

/-- **Every call passes its checks** if the first one does. -/
theorem Admits.of_calls (h : m.Admits bottom angles) (hcalls : Calls angles inner) :
    m.Admits bottom inner := by
  induction hcalls with
  | self angles => exact h
  | low hmany _ ih => exact ih (h.half hmany (length_halfSums _))
  | high hmany _ ih => exact ih (h.half hmany (length_halfDifferences _))

/-! ### Multiplexors that are built -/

theorem exists_of_ofControls_zero {t : GateTree α}
    (h : m.ofControls bottom 0 angles = .ok t) : ∃ angle target, angles = [angle] ∧
      m.register[bottom]? = some target ∧ t = .leaf (.rotation m.axis angle target) := by
  unfold ofControls at h
  split at h
  · next angle target htarget => exact ⟨angle, target, rfl, htarget, (Except.ok.inj h).symm⟩
  · cases h
  · cases h

theorem exists_of_ofControls_succ {controls : ℕ} {t : GateTree α}
    (h : m.ofControls bottom (controls + 1) angles = .ok t) :
    angles.length = 2 ^ (controls + 1) ∧
    ∃ target control low high, m.register[bottom]? = some target ∧
      m.register[bottom + controls + 1]? = some control ∧
      m.ofControls bottom controls (halfSums angles) = .ok low ∧
      m.ofControls bottom controls (halfDifferences angles) = .ok high ∧
      t = .composite s!"multiplex{controls + 2}" ([low, .leaf (.cx control target), high.reverse] ++
        if m.register.length = bottom + controls + 2 then [.leaf (.cx control target)]
        else []) := by
  unfold ofControls at h
  split at h
  · cases h
  · next hlen =>
    split at h
    · next target control htarget hcontrol =>
      obtain ⟨low, hlow, h⟩ := bind_eq_ok_iff.mp h
      obtain ⟨high, hhigh, h⟩ := bind_eq_ok_iff.mp h
      exact ⟨not_not.mp hlen, target, control, low, high, htarget, hcontrol, hlow, hhigh,
        (Except.ok.inj h).symm⟩
    · cases h

theorem length_of_ofControls {count : ℕ} {t : GateTree α}
    (h : m.ofControls bottom count angles = .ok t) :
    angles.length = 2 ^ count ∧ bottom + count < m.register.length := by
  cases count with
  | zero =>
    obtain ⟨angle, target, rfl, htarget, -⟩ := exists_of_ofControls_zero h
    exact ⟨rfl, (List.getElem?_eq_some_iff.mp htarget).1⟩
  | succ controls =>
    obtain ⟨hlen, target, control, -, -, -, hcontrol, -⟩ := exists_of_ofControls_succ h
    exact ⟨hlen, (List.getElem?_eq_some_iff.mp hcontrol).1⟩

/-- **A multiplexor is built if its first call is admitted**, and only then. -/
theorem exists_toTree_iff : (∃ t, m.toTree bottom angles = .ok t) ↔ m.Admits bottom angles := by
  rw [admits_iff]
  constructor
  · rintro ⟨t, h⟩
    exact ⟨_, length_of_ofControls h⟩
  · rintro ⟨k, hk, hfits⟩
    obtain ⟨t, ht, -⟩ := flatten_ofControls m (by omega) k angles hk hfits
    exact ⟨t, by rwa [toTree, hk, Nat.log2_two_pow]⟩

/-! ### Leaves -/

/-- An operation that a multiplexor can have: the rotation of a qubit about the axis, or the flip of
a qubit under one that is above it in the register. -/
inductive IsPart {α : Type} (m : Multiplexor) : Operation α → Prop where
  | rotation (theta : α) {t : ℕ} (ht : t < m.register.length) :
    m.IsPart (.rotation m.axis theta m.register[t])
  | cx {t c : ℕ} (htc : t < c) (hc : c < m.register.length) :
    m.IsPart (.cx m.register[c] m.register[t])

theorem IsPart.wellFormed {α : Type} {op : Operation α} (h : m.IsPart op)
    (hnodup : m.register.Nodup) : op.WellFormed m.register := by
  cases h with
  | rotation theta ht => exact Operation.wellFormed_rotation m.axis theta (List.getElem_mem ht)
  | cx htc hc =>
    refine Operation.wellFormed_cx ?_ (List.getElem_mem _) (List.getElem_mem _)
    intro heq
    exact htc.ne' ((List.Nodup.getElem_inj_iff hnodup).mp heq)

theorem IsPart.inverse {α : Type} [Neg α] {op : Operation α} (h : m.IsPart op) :
    m.IsPart op.inverse := by
  cases h with
  | rotation theta ht =>
    rw [Operation.inverse_rotation]
    exact .rotation (-theta) ht
  | cx htc hc => exact .cx htc hc

theorem flatten_of_toTree {t : GateTree α} (h : m.toTree bottom angles = .ok t) :
    ∃ (count : ℕ) (hbottom : bottom < m.register.length), bottom + count < m.register.length ∧
      angles.length = 2 ^ count ∧ t.flatten = ladder m.axis m.register[bottom]
        (controlsAbove m.register bottom count).reverse angles ++
          closing m.register bottom count m.register[bottom] := by
  obtain ⟨hlen, hfits⟩ := length_of_ofControls h
  have hbottom : bottom < m.register.length := by omega
  obtain ⟨t', ht', hleaves⟩ := flatten_ofControls m hbottom _ angles hlen hfits
  obtain rfl : t = t' := Except.ok.inj (h.symm.trans ht')
  exact ⟨_, hbottom, hfits, hlen, hleaves⟩

/-- **What a multiplexor is made of**: flips of its target under a qubit above it, and rotations of
its target by angles with the same properties as those given, as far as half-sums and
half-differences keep them. -/
theorem mem_toTree_of {P : α → Prop} (hsum : ∀ x y, P x → P y → P (Scalar.half (x + y)))
    (hdifference : ∀ x y, P x → P y → P (Scalar.half (x - y))) (hangles : ∀ theta ∈ angles, P theta)
    {t : GateTree α} (h : m.toTree bottom angles = .ok t) {op : Operation α}
    (hop : op ∈ t.flatten) :
    ∃ hbottom : bottom < m.register.length,
      (∃ theta, P theta ∧ op = .rotation m.axis theta m.register[bottom]) ∨
        ∃ (c : ℕ) (hc : c < m.register.length),
          bottom < c ∧ op = .cx m.register[c] m.register[bottom] := by
  obtain ⟨count, hbottom, hfits, -, hleaves⟩ := flatten_of_toTree h
  refine ⟨hbottom, ?_⟩
  rw [hleaves, List.mem_append] at hop
  rcases hop with hop | hop
  · refine (mem_ladder_of hsum hdifference hangles hop).imp_right ?_
    rintro ⟨q, hq, rfl⟩
    obtain ⟨c, hc, hlt, rfl⟩ := exists_of_mem_controlsAbove (List.mem_reverse.mp hq)
    exact ⟨c, hc, hlt, rfl⟩
  · unfold closing at hop
    split at hop
    · next htop =>
      rw [List.getD_eq_getElem _ _ hfits] at hop
      exact .inr ⟨bottom + count, hfits, by omega, List.mem_singleton.mp hop⟩
    · cases hop

theorem isPart_of_toTree {t : GateTree α} (h : m.toTree bottom angles = .ok t) :
    ∀ op ∈ t.flatten, m.IsPart op := by
  intro op hop
  have hkept : ∀ x y : α, True → True → True := fun _ _ _ _ => trivial
  obtain ⟨hbottom, ⟨theta, -, rfl⟩ | ⟨c, hc, hlt, rfl⟩⟩ :=
    mem_toTree_of hkept hkept (fun _ _ => trivial) h hop
  · exact .rotation theta hbottom
  · exact .cx hlt hc

end Multiplexor

end StatePrep
