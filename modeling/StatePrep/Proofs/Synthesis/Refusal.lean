import StatePrep.Proofs.Number.Real
import StatePrep.Proofs.Synthesis.Calls

/-! # When a multiplexor cannot be built

There are two reasons (`Refused`). The number of angles may be no power of two, which is looked at
first, so the place of the target does not matter then. Or there are `2 ^ k` angles and the place
`k` above the target, that of the highest control, lies outside the register. The error tells which
of the two it was (`toTree_eq_error_iff`).

With more than one angle the same is asked again for the half-sums and for the half-differences
(`toTree_eq_join`). None of these further calls is refused if the first one is not
(`exists_toTree_of_calls`). -/

namespace StatePrep

namespace Multiplexor

variable {α : Type} {m : Multiplexor} {bottom : ℕ} {angles inner : List α}

/-! ### The reasons -/

/-- A reason to refuse a call, with the error that tells of it. -/
inductive Refused (m : Multiplexor) (bottom : ℕ) (angles : List α) : MultiplexorError → Prop where
  | angleCount (h : ¬ ∃ k : ℕ, angles.length = 2 ^ k) :
    Refused m bottom angles (.angleCount angles.length)
  | outsideRegister {k : ℕ} (hlen : angles.length = 2 ^ k)
    (houtside : m.register.length ≤ bottom + k) : Refused m bottom angles .outsideRegister

theorem admits_or_refused (m : Multiplexor) (bottom : ℕ) (angles : List α) :
    m.Admits bottom angles ∨ ∃ e, Refused m bottom angles e := by
  by_cases h : ∃ k : ℕ, angles.length = 2 ^ k
  · obtain ⟨k, hk⟩ := h
    rcases Nat.lt_or_ge (bottom + k) m.register.length with hfits | houtside
    · exact .inl (admits_iff.mpr ⟨k, hk, hfits⟩)
    · exact .inr ⟨_, .outsideRegister hk houtside⟩
  · exact .inr ⟨_, .angleCount h⟩

variable [Scalar α]

theorem toTree_of_not_power (m : Multiplexor) (bottom : ℕ) {angles : List α}
    (h : ¬ ∃ k : ℕ, angles.length = 2 ^ k) :
    m.toTree bottom angles = .error (.angleCount angles.length) := by
  unfold toTree
  cases angles.length.log2 with
  | zero =>
    match angles, h with
    | [], _ => rfl
    | [_], h => exact absurd ⟨0, rfl⟩ h
    | _ :: _ :: _, _ => rfl
  | succ controls =>
    rw [ofControls]
    exact if_pos fun hlen => h ⟨_, hlen⟩

theorem toTree_of_outside {k : ℕ} (hlen : angles.length = 2 ^ k)
    (houtside : m.register.length ≤ bottom + k) :
    m.toTree bottom angles = .error .outsideRegister := by
  unfold toTree
  rw [hlen, Nat.log2_two_pow]
  cases k with
  | zero =>
    obtain ⟨angle, rfl⟩ := List.length_eq_one_iff.mp hlen
    rw [Nat.add_zero] at houtside
    unfold ofControls
    rw [List.getElem?_eq_none houtside]
  | succ controls =>
    rw [ofControls, if_neg (not_not.mpr hlen),
      List.getElem?_eq_none (i := bottom + controls + 1) houtside]
    cases m.register[bottom]? <;> rfl

theorem Refused.toTree_eq_error {e : MultiplexorError} (h : Refused m bottom angles e) :
    m.toTree bottom angles = .error e := by
  cases h with
  | angleCount h => exact toTree_of_not_power m bottom h
  | outsideRegister hlen houtside => exact toTree_of_outside hlen houtside

/-- **The error of a multiplexor** is that of the reason to refuse it. -/
theorem toTree_eq_error_iff {e : MultiplexorError} :
    m.toTree bottom angles = .error e ↔ Refused m bottom angles e := by
  constructor
  · intro h
    rcases admits_or_refused m bottom angles with hadmits | ⟨e', he'⟩
    · obtain ⟨t, ht⟩ := exists_toTree_iff.mpr hadmits
      cases h.symm.trans ht
    · obtain rfl := Except.error.inj (h.symm.trans he'.toTree_eq_error)
      exact he'
  · exact Refused.toTree_eq_error

/-! ### Further calls -/

/-- **The further calls of a multiplexor** with controls: it is put together from the multiplexor of
the half-sums and that of the half-differences, both with the same target. -/
theorem toTree_eq_join {k : ℕ} (hlen : angles.length = 2 ^ (k + 1))
    (hfits : bottom + (k + 1) < m.register.length) :
    m.toTree bottom angles = (do
      let low ← m.toTree bottom (halfSums angles)
      let high ← m.toTree bottom (halfDifferences angles)
      let flip : GateTree α := .leaf (.cx m.register[bottom + (k + 1)] m.register[bottom])
      return .composite s!"multiplex{k + 2}" ([low, flip, high.reverse] ++
        if m.register.length = bottom + k + 2 then [flip] else [])) := by
  have hhalf : angles.length / 2 = 2 ^ k := by rw [hlen, Nat.pow_succ]; omega
  have htarget : m.register[bottom]? = some m.register[bottom] :=
    List.getElem?_eq_getElem (by omega)
  have hcontrol : m.register[bottom + k + 1]? = some m.register[bottom + (k + 1)] :=
    List.getElem?_eq_getElem hfits
  unfold toTree
  rw [length_halfSums, length_halfDifferences, hhalf, hlen, Nat.log2_two_pow, Nat.log2_two_pow,
    ofControls, if_neg (not_not.mpr hlen), htarget, hcontrol]

/-- **What a multiplexor that is built calls for** is built, since a further call that failed would
be the failure of the first one. -/
theorem exists_toTree_of_calls (hcalls : Calls angles inner)
    (h : ∃ t, m.toTree bottom angles = .ok t) : ∃ t, m.toTree bottom inner = .ok t := by
  induction hcalls with
  | self angles => exact h
  | low hmany _ ih =>
    obtain ⟨k, hlen, hfits⟩ := (exists_toTree_iff.mp h).exists_control hmany
    obtain ⟨t, ht⟩ := h
    rw [toTree_eq_join hlen hfits] at ht
    obtain ⟨low, hlow, -⟩ := bind_eq_ok_iff.mp ht
    exact ih ⟨low, hlow⟩
  | high hmany _ ih =>
    obtain ⟨k, hlen, hfits⟩ := (exists_toTree_iff.mp h).exists_control hmany
    obtain ⟨t, ht⟩ := h
    rw [toTree_eq_join hlen hfits] at ht
    obtain ⟨low, -, ht⟩ := bind_eq_ok_iff.mp ht
    obtain ⟨high, hhigh, -⟩ := bind_eq_ok_iff.mp ht
    exact ih ⟨high, hhigh⟩

/-- **When a multiplexor fails.** It does exactly if the number of angles is no power of two, or if
it is `2 ^ k` and the place `k` above the target is outside the register. In the first case the
error names the number of angles, wherever the target is. If it is neither case, then no further
call fails, for the half-sums or the half-differences of the angles and so on down. -/
theorem toTree_failure (m : Multiplexor) (bottom : ℕ) (angles : List α) :
    ((∃ e, m.toTree bottom angles = .error e) ↔
      (¬ ∃ k : ℕ, angles.length = 2 ^ k) ∨
        ∃ k : ℕ, angles.length = 2 ^ k ∧ m.register.length ≤ bottom + k) ∧
    ((¬ ∃ k : ℕ, angles.length = 2 ^ k) →
      m.toTree bottom angles = .error (.angleCount angles.length)) ∧
    ∀ k : ℕ, angles.length = 2 ^ k →
      (m.register.length ≤ bottom + k → m.toTree bottom angles = .error .outsideRegister) ∧
      (bottom + k < m.register.length →
        ∀ inner, Calls angles inner → ∃ t, m.toTree bottom inner = .ok t) := by
  refine ⟨⟨?_, ?_⟩, toTree_of_not_power m bottom, fun k hk => ⟨toTree_of_outside hk, ?_⟩⟩
  · rintro ⟨e, h⟩
    cases toTree_eq_error_iff.mp h with
    | angleCount hcount => exact .inl hcount
    | outsideRegister hlen houtside => exact .inr ⟨_, hlen, houtside⟩
  · rintro (h | ⟨k, hk, houtside⟩)
    · exact ⟨_, toTree_of_not_power m bottom h⟩
    · exact ⟨_, toTree_of_outside hk houtside⟩
  · intro hfits inner hcalls
    exact exists_toTree_of_calls hcalls (exists_toTree_iff.mpr (admits_iff.mpr ⟨k, hk, hfits⟩))

/-- On three qubits: three angles far outside the register, four angles one place too high, and four
angles in place, of which the last call has the difference of the two differences. -/
theorem toTree_failure_three_qubits :
    let m : Multiplexor := ⟨[⟨4⟩, ⟨2⟩, ⟨7⟩], .z⟩
    m.toTree 9 [(1 : ℚ), 2, 3] = .error (.angleCount 3) ∧
      m.toTree 1 [(1 : ℚ), 2, 3, 4] = .error .outsideRegister ∧
      ∃ t, m.toTree 0 (halfDifferences (halfDifferences [(1 : ℚ), 2, 3, 4])) = .ok t := by
  intro m
  have hthree : ¬ ∃ k : ℕ, [(1 : ℚ), 2, 3].length = 2 ^ k := by
    rw [← isPowerOfTwo_iff]
    decide
  refine ⟨(toTree_failure m 9 _).2.1 hthree, ((toTree_failure m 1 _).2.2 2 rfl).1 (by decide),
    ((toTree_failure m 0 [(1 : ℚ), 2, 3, 4]).2.2 2 rfl).2 (by decide) _ ?_⟩
  exact .high (by decide) (.high (by decide) (.self _))

end Multiplexor

end StatePrep
