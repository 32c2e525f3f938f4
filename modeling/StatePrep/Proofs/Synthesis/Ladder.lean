import Mathlib.Data.List.GetD
import Mathlib.Data.List.Nodup
import StatePrep.Proofs.Tree.Leaves
import StatePrep.Synthesis.Multiplexor

/-! # The leaves of a multiplexor

From left to right the leaves of a multiplexor are a ladder: the ladder of the half-sums of the
angles, the flip under the highest control, and the ladder of the half-differences in the turned
order. At the end of the outermost one stands the closing flip.

`flatten_ofControls` says this, and that a multiplexor with the right number of angles and all its
qubits inside the register can be built. No law of arithmetic is needed. -/

namespace StatePrep

namespace Multiplexor

variable {α : Type} [Scalar α]

theorem length_halfSums (angles : List α) : (halfSums angles).length = angles.length / 2 := by
  unfold halfSums
  rw [List.length_zipWith, List.length_take, List.length_drop]
  omega

theorem length_halfDifferences (angles : List α) :
    (halfDifferences angles).length = angles.length / 2 := by
  unfold halfDifferences
  rw [List.length_zipWith, List.length_take, List.length_drop]
  omega

theorem getD_zipWith_halves {β : Type} (f : β → β → β) {l : List β} {d : β} {m r : ℕ}
    (hlen : l.length = m * 2) (hr : r < m) :
    (List.zipWith f (l.take m) (l.drop m)).getD r d = f (l.getD r d) (l.getD (r + m) d) := by
  rw [List.getD_eq_getElem _ _ (by simp; omega), List.getD_eq_getElem _ _ (by omega),
    List.getD_eq_getElem _ _ (by omega), List.getElem_zipWith, List.getElem_take,
    List.getElem_drop]
  simp only [Nat.add_comm m r]

/-- The operations of a multiplexor without a closing flip, the highest control coming first in the
list of controls. -/
def ladder (axis : Axis) (target : Qubit) : List Qubit → List α → List (Operation α)
  | [], angles => angles.map fun theta => .rotation axis theta target
  | c :: below, angles =>
    ladder axis target below (halfSums angles) ++
      .cx c target :: (ladder axis target below (halfDifferences angles)).reverse

theorem forall_mem_zipWith_halves {β : Type} {P : β → Prop} {f : β → β → β}
    (hf : ∀ x y, P x → P y → P (f x y)) {l : List β} (hl : ∀ x ∈ l, P x) (m : ℕ) :
    ∀ z ∈ List.zipWith f (l.take m) (l.drop m), P z := by
  rw [← List.map_uncurry_zip_eq_zipWith]
  intro z hz
  obtain ⟨⟨x, y⟩, hxy, rfl⟩ := List.mem_map.mp hz
  obtain ⟨hx, hy⟩ := List.of_mem_zip hxy
  exact hf x y (hl x (List.mem_of_mem_take hx)) (hl y (List.mem_of_mem_drop hy))

/-- **What a ladder is made of**: flips, and rotations by angles with the same properties, as far as
half-sums and half-differences keep them. -/
theorem mem_ladder_of {P : α → Prop} (hsum : ∀ x y, P x → P y → P (Scalar.half (x + y)))
    (hdifference : ∀ x y, P x → P y → P (Scalar.half (x - y))) {axis : Axis} {target : Qubit}
    {op : Operation α} {controls : List Qubit} :
    ∀ {angles : List α}, (∀ theta ∈ angles, P theta) → op ∈ ladder axis target controls angles →
      (∃ theta, P theta ∧ op = .rotation axis theta target) ∨
        ∃ c ∈ controls, op = .cx c target := by
  induction controls with
  | nil =>
    intro angles hangles h
    obtain ⟨theta, htheta, rfl⟩ := List.mem_map.mp h
    exact .inl ⟨theta, hangles theta htheta, rfl⟩
  | cons c below ih =>
    intro angles hangles h
    have lift : (∃ d ∈ below, op = .cx d target) → ∃ d ∈ c :: below, op = .cx d target := by
      rintro ⟨d, hd, h⟩
      exact ⟨d, List.mem_cons_of_mem c hd, h⟩
    rw [ladder, List.mem_append, List.mem_cons, List.mem_reverse] at h
    rcases h with h | rfl | h
    · exact (ih (forall_mem_zipWith_halves hsum hangles _) h).imp_right lift
    · exact .inr ⟨c, List.mem_cons_self, rfl⟩
    · exact (ih (forall_mem_zipWith_halves hdifference hangles _) h).imp_right lift

theorem mem_ladder {axis : Axis} {target : Qubit} {op : Operation α} {controls : List Qubit}
    {angles : List α} (h : op ∈ ladder axis target controls angles) :
    (∃ theta, op = .rotation axis theta target) ∨ ∃ c ∈ controls, op = .cx c target := by
  have hkept : ∀ x y : α, True → True → True := fun _ _ _ _ => trivial
  obtain ⟨theta, -, hop⟩ | hflip := mem_ladder_of hkept hkept (fun _ _ => trivial) h
  · exact .inl ⟨theta, hop⟩
  · exact .inr hflip

/-! ### Controls in a register -/

/-- The qubits of a register right above a place. -/
def controlsAbove (register : List Qubit) (bottom count : ℕ) : List Qubit :=
  (register.drop (bottom + 1)).take count

theorem controlsAbove_zero (register : List Qubit) (bottom : ℕ) :
    controlsAbove register bottom 0 = [] := rfl

theorem controlsAbove_succ {register : List Qubit} {bottom count : ℕ}
    (h : bottom + count + 1 < register.length) :
    controlsAbove register bottom (count + 1) =
      controlsAbove register bottom count ++ [register[bottom + count + 1]] := by
  unfold controlsAbove
  have hplace : (register.drop (bottom + 1))[count]? = some register[bottom + count + 1] := by
    rw [List.getElem?_drop, ← List.getElem?_eq_getElem h]
    congr 1
    omega
  rw [List.take_add_one, hplace]
  rfl

theorem length_controlsAbove {register : List Qubit} {bottom count : ℕ}
    (h : bottom + count < register.length) :
    (controlsAbove register bottom count).length = count := by
  unfold controlsAbove
  rw [List.length_take, List.length_drop]
  omega

theorem mem_of_mem_controlsAbove {register : List Qubit} {bottom count : ℕ} {q : Qubit}
    (h : q ∈ controlsAbove register bottom count) : q ∈ register :=
  List.mem_of_mem_drop (List.mem_of_mem_take h)

theorem exists_of_mem_controlsAbove {register : List Qubit} {bottom count : ℕ} {q : Qubit}
    (h : q ∈ controlsAbove register bottom count) :
    ∃ (c : ℕ) (hc : c < register.length), bottom < c ∧ q = register[c] := by
  obtain ⟨i, hi, rfl⟩ := List.getElem_of_mem (List.mem_of_mem_take h)
  rw [List.length_drop] at hi
  exact ⟨bottom + 1 + i, by omega, by omega, List.getElem_drop ..⟩

theorem ne_of_mem_controlsAbove {register : List Qubit} (hnodup : register.Nodup)
    {bottom count : ℕ} (h : bottom < register.length) {q : Qubit}
    (hq : q ∈ controlsAbove register bottom count) : q ≠ register[bottom] := by
  obtain ⟨c, hc, hlt, rfl⟩ := exists_of_mem_controlsAbove hq
  intro heq
  exact Nat.ne_of_gt hlt ((List.Nodup.getElem_inj_iff hnodup).mp heq)

/-! ### Building -/

/-- The flip at the end of the outermost multiplexor, if it has a control. -/
def closing (register : List Qubit) (bottom count : ℕ) (target : Qubit) : List (Operation α) :=
  if count ≠ 0 ∧ register.length = bottom + count + 1 then
    [.cx (register.getD (bottom + count) target) target]
  else []

/-- **A multiplexor is built, and its leaves are a ladder and the closing flip.** -/
theorem flatten_ofControls (m : Multiplexor) {bottom : ℕ} (hbottom : bottom < m.register.length)
    (count : ℕ) : ∀ angles : List α, angles.length = 2 ^ count →
      bottom + count < m.register.length → ∃ t, m.ofControls bottom count angles = .ok t ∧
        t.flatten = ladder m.axis m.register[bottom]
          (controlsAbove m.register bottom count).reverse angles ++
            closing m.register bottom count m.register[bottom] := by
  induction count with
  | zero =>
    intro angles hlen _
    obtain ⟨angle, rfl⟩ := List.length_eq_one_iff.mp hlen
    refine ⟨.leaf (.rotation m.axis angle m.register[bottom]), ?_, rfl⟩
    simp only [ofControls, List.getElem?_eq_getElem hbottom]
  | succ count ih =>
    intro angles hlen hcount
    have hhalf : angles.length / 2 = 2 ^ count := by rw [hlen, Nat.pow_succ]; omega
    obtain ⟨low, hlow, hlowleaves⟩ := ih (halfSums angles)
      ((length_halfSums angles).trans hhalf) (by omega)
    obtain ⟨high, hhigh, hhighleaves⟩ := ih (halfDifferences angles)
      ((length_halfDifferences angles).trans hhalf) (by omega)
    -- the inner multiplexors end below the top of the register, so they are not closed
    have hopen : (closing m.register bottom count m.register[bottom] : List (Operation α)) = [] :=
      if_neg (by omega)
    have hcontrol : m.register[bottom + count + 1]? = some m.register[bottom + count + 1] :=
      List.getElem?_eq_getElem hcount
    refine ⟨.composite s!"multiplex{count + 2}" ([low, .leaf (.cx m.register[bottom + count + 1]
      m.register[bottom]), high.reverse] ++ if m.register.length = bottom + count + 2 then
        [.leaf (.cx m.register[bottom + count + 1] m.register[bottom])] else []), ?_, ?_⟩
    · rw [ofControls, if_neg (not_not.mpr hlen), List.getElem?_eq_getElem hbottom, hcontrol]
      simp only [hlow, hhigh, bind, Except.bind, pure, Except.pure]
    · have hclosing : GateTree.flattenAll (if m.register.length = bottom + count + 2 then
          [.leaf (.cx m.register[bottom + count + 1] m.register[bottom])] else []) =
          (closing m.register bottom (count + 1) m.register[bottom] : List (Operation α)) := by
        unfold closing
        rw [List.getD_eq_getElem _ _ hcount]
        split <;> simp_all [GateTree.flattenAll, GateTree.flatten, Nat.add_assoc]
      rw [GateTree.flatten, GateTree.flattenAll_append, hclosing, controlsAbove_succ hcount,
        List.reverse_append, List.reverse_singleton, List.singleton_append, ladder]
      simp only [GateTree.flattenAll, GateTree.flatten, GateTree.flatten_reverse, hlowleaves,
        hhighleaves, hopen, List.append_nil, List.singleton_append]

end Multiplexor

end StatePrep
