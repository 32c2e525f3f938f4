import Mathlib.Algebra.Order.Group.Multiset
import StatePrep.Proofs.Synthesis.Outcome

/-! # How many gates a preparation has

Operations are counted by their axis and their target (`Operation.kind?`). What a multiplexor has of
each kind depends only on the number of its controls: a rotation for each angle, and if it is the
outermost one and has a control, as many flips (`census_ladder`, `census_toTree`). In the recursion
the flip between the two parts makes up for the flip that both leave out, so that a ladder is one
flip short.

The multiplexors of all levels are outermost ones, so the census of the disentangler is a recursion
over the register (`census_disentangler`). It adds up to `2 ^ (n + 2) - 6` gates for `n` qubits
(`card_registerCensus`), and on distinct qubits it tells what is done to each of them
(`count_registerCensus`). The amplitudes have no part in it; `prepare_gateCount` puts this together
for a prepared tree. -/

namespace StatePrep

open Multiplexor

variable {α : Type}

/-! ### Kinds of operations -/

/-- A rotation or a controlled flip, by its axis and its target. -/
inductive Kind where
  | rotation (axis : Axis) (target : Qubit)
  | flip (target : Qubit)
  deriving DecidableEq

def Kind.target : Kind → Qubit
  | .rotation _ target => target
  | .flip target => target

/-- The kind of an operation. Gates that no multiplexor has are of none, and so are gates with a
wrong list of operands. -/
def Operation.kind? : Operation α → Option Kind
  | ⟨.rx _, [target]⟩ => some (.rotation .x target)
  | ⟨.ry _, [target]⟩ => some (.rotation .y target)
  | ⟨.rz _, [target]⟩ => some (.rotation .z target)
  | ⟨.cx, [_, target]⟩ => some (.flip target)
  | _ => none

theorem kind?_rotation (axis : Axis) (theta : α) (q : Qubit) :
    (Operation.rotation axis theta q).kind? = some (.rotation axis q) := by
  cases axis <;> rfl

theorem kind?_inverse [Neg α] (op : Operation α) : op.inverse.kind? = op.kind? := by
  obtain ⟨g, qs⟩ := op
  cases g <;> rcases qs with _ | ⟨_, _ | ⟨_, _ | _⟩⟩ <;> rfl

/-- The kinds of some operations, each as often as it occurs. -/
def census (ops : List (Operation α)) : Multiset (Option Kind) :=
  ops.map Operation.kind?

theorem census_singleton (op : Operation α) : census [op] = {op.kind?} := rfl

theorem census_append (xs ys : List (Operation α)) :
    census (xs ++ ys) = census xs + census ys := by
  rw [census, List.map_append, ← Multiset.coe_add]
  rfl

theorem census_reverse (ops : List (Operation α)) : census ops.reverse = census ops := by
  rw [census, List.map_reverse, Multiset.coe_reverse]
  rfl

theorem census_map_inverse [Neg α] (ops : List (Operation α)) :
    census (ops.map Operation.inverse) = census ops := by
  have hkind : Operation.kind? ∘ Operation.inverse = (Operation.kind? : Operation α → _) :=
    funext kind?_inverse
  rw [census, List.map_map, hkind]
  rfl

/-! ### One multiplexor -/

section Multiplexor

variable [Scalar α]

/-- **A ladder is one flip short** of having a flip for each rotation. -/
theorem census_ladder (axis : Axis) (target : Qubit) (controls : List Qubit) :
    ∀ {angles : List α}, angles.length = 2 ^ controls.length →
      census (ladder axis target controls angles) + {some (.flip target)} =
        2 ^ controls.length • ({some (.rotation axis target)} + {some (.flip target)}) := by
  induction controls with
  | nil =>
    intro angles hlen
    obtain ⟨theta, rfl⟩ := List.length_eq_one_iff.mp hlen
    rw [ladder, List.map_singleton, census_singleton, kind?_rotation, List.length_nil, pow_zero,
      one_nsmul]
  | cons c below ih =>
    intro angles hlen
    have hhalf : angles.length / 2 = 2 ^ below.length := by
      rw [hlen, List.length_cons, Nat.pow_succ]
      omega
    have hlow := ih ((length_halfSums angles).trans hhalf)
    have hhigh := ih ((length_halfDifferences angles).trans hhalf)
    have hflip : (Operation.cx c target : Operation α).kind? = some (.flip target) := rfl
    rw [ladder, ← List.singleton_append, census_append, census_append, census_reverse,
      census_singleton, hflip, ← add_assoc, hlow, add_assoc, hhigh, ← add_nsmul, List.length_cons,
      Nat.pow_succ, Nat.mul_two]

/-- The flips of an outermost multiplexor, by the number of its controls. -/
def closedFlips (controls : ℕ) : ℕ := if controls = 0 then 0 else 2 ^ controls

/-- **An outermost multiplexor** has a rotation for each angle, and as many flips if it has a
control. -/
theorem census_toTree {register above : List Qubit} {axis : Axis} {place : ℕ} {target : Qubit}
    (hdrop : register.drop place = target :: above) {angles : List α}
    (hlen : angles.length = 2 ^ above.length) {t : GateTree α}
    (h : toTree ⟨register, axis⟩ place angles = .ok t) :
    census t.flatten = 2 ^ above.length • {some (.rotation axis target)} +
      closedFlips above.length • {some (.flip target)} := by
  obtain ⟨count, hplace, hfits, hcount, hleaves⟩ := flatten_of_toTree h
  dsimp only at hplace hfits hleaves
  have htarget : register[place] = target := by
    have hhead := List.drop_eq_getElem_cons hplace
    rw [hdrop] at hhead
    exact (List.cons.inj hhead).1.symm
  obtain rfl : count = above.length :=
    Nat.pow_right_injective le_rfl (hcount.symm.trans hlen)
  have htop : register.length = place + above.length + 1 := by
    have hlength := congrArg List.length hdrop
    rw [List.length_drop, List.length_cons] at hlength
    omega
  have hcontrols : (controlsAbove register place above.length).reverse.length = above.length := by
    rw [List.length_reverse, length_controlsAbove hfits]
  have hladder := census_ladder axis target (controlsAbove register place above.length).reverse
    (hlen.trans (congrArg (2 ^ ·) hcontrols.symm))
  rw [hcontrols, nsmul_add] at hladder
  rw [hleaves, htarget, census_append]
  unfold closedFlips closing
  by_cases hnone : above.length = 0
  · have hempty : census ([] : List (Operation α)) = 0 := rfl
    rw [if_neg fun hclosed => hclosed.1 hnone, if_pos hnone, hempty, add_zero, zero_nsmul, add_zero]
    simp only [hnone, pow_zero, one_nsmul] at hladder ⊢
    exact add_right_cancel hladder
  · rw [if_pos ⟨hnone, htop⟩, if_neg hnone, census_singleton]
    exact hladder

end Multiplexor

/-! ### The levels -/

/-- The operations that disentangle a qubit with a number of others above it. -/
def levelCensus (q : Qubit) (controls : ℕ) : Multiset (Option Kind) :=
  2 ^ controls • {some (.rotation .z q)} + 2 ^ controls • {some (.rotation .y q)} +
    (2 * closedFlips controls) • {some (.flip q)}

/-- The operations that disentangle some qubits, the lowest first. -/
def registerCensus : List Qubit → Multiset (Option Kind)
  | [] => 0
  | q :: above => levelCensus q above.length + registerCensus above

/-- **The census of a disentangler** depends on its register alone. -/
theorem census_disentangler [Analytic α] {tolerance : α} {register qubits : List Qubit} :
    ∀ {place : ℕ} {amps left : List (Amplitude α)} {trees : List (GateTree α)},
      register.drop place = qubits → amps.length = 2 ^ qubits.length →
      Preparation.disentangler tolerance register qubits.length place amps = .ok (trees, left) →
        census (GateTree.flattenAll trees) = registerCensus qubits := by
  induction qubits with
  | nil =>
    intro place amps left trees _ _ h
    obtain ⟨rfl, -⟩ := Prod.mk.inj (Except.ok.inj h)
    rfl
  | cons q above ih =>
    intro place amps left trees hdrop hlen h
    rw [List.length_cons] at hlen
    rw [List.length_cons] at h
    obtain ⟨z, y, later, hz, hy, hlater, rfl⟩ := disentangler_succ_eq_ok_iff.mp h
    have hangles (angle : BlochAngles α → α) :
        ((disentangle tolerance amps).map angle).length = 2 ^ above.length := by
      rw [List.length_map, length_disentangle, hlen, Nat.pow_succ]
      omega
    have hrest : register.drop (place + 1) = above := by
      rw [← List.tail_drop, hdrop, List.tail_cons]
    have hz' := census_toTree hdrop (hangles BlochAngles.phi) hz
    have hy' := census_toTree hdrop (hangles BlochAngles.theta) hy
    have hlater' := ih hrest (length_remaining tolerance hlen) hlater
    rw [GateTree.flattenAll, GateTree.flattenAll, census_append, census_append, hz', hy', hlater',
      registerCensus, levelCensus, two_mul, add_nsmul, ← add_assoc, add_add_add_comm]

theorem card_levelCensus (q : Qubit) (controls : ℕ) :
    (levelCensus q controls).card = 2 * 2 ^ controls + 2 * closedFlips controls := by
  unfold levelCensus
  simp only [Multiset.card_add, Multiset.card_nsmul, Multiset.card_singleton]
  omega

theorem card_registerCensus {qubits : List Qubit} (h : qubits ≠ []) :
    (registerCensus qubits).card = 2 ^ (qubits.length + 2) - 6 := by
  have hsum : (registerCensus qubits).card + 6 = 2 ^ (qubits.length + 2) := by
    induction qubits with
    | nil => exact absurd rfl h
    | cons q above ih =>
      rw [registerCensus, Multiset.card_add, card_levelCensus, List.length_cons]
      -- the highest qubit has no control, so its level has no flips
      cases above with
      | nil => rfl
      | cons next above =>
        have hrest := ih (List.cons_ne_nil next above)
        have hflips : closedFlips (next :: above).length = 2 ^ (next :: above).length :=
          if_neg (by simp)
        rw [Nat.pow_add] at hrest ⊢
        rw [hflips, Nat.pow_succ]
        omega
  omega

example : (registerCensus [⟨0⟩, ⟨1⟩, ⟨2⟩]).card = 26 := rfl

/-- How many operations of a kind a level has, by the number of controls. -/
def Kind.share : Kind → ℕ → ℕ
  | .rotation .x _, _ => 0
  | .rotation .y _, controls => 2 ^ controls
  | .rotation .z _, controls => 2 ^ controls
  | .flip _, controls => 2 * closedFlips controls

theorem share_flip (q : Qubit) (n t : ℕ) :
    (Kind.flip q).share (n - 1 - t) = if t < n - 1 then 2 ^ (n - t) else 0 := by
  change 2 * closedFlips (n - 1 - t) = _
  unfold closedFlips
  by_cases htop : t < n - 1
  · have hexp : n - t = n - 1 - t + 1 := by omega
    rw [if_neg (Nat.sub_ne_zero_of_lt htop), if_pos htop, hexp, Nat.pow_succ, Nat.mul_comm]
  · rw [if_pos (by omega), if_neg htop]

theorem count_levelCensus (kind : Kind) (q : Qubit) (controls : ℕ) :
    (levelCensus q controls).count (some kind) =
      if kind.target = q then kind.share controls else 0 := by
  unfold levelCensus
  simp only [Multiset.count_add, Multiset.count_nsmul, Multiset.count_singleton]
  rcases kind with ⟨_ | _ | _, target⟩ | target <;> by_cases h : target = q <;>
    simp [Kind.target, Kind.share, h]

theorem count_registerCensus_of_notMem {kind : Kind} {qubits : List Qubit}
    (h : kind.target ∉ qubits) : (registerCensus qubits).count (some kind) = 0 := by
  induction qubits with
  | nil => rfl
  | cons q above ih =>
    rw [List.mem_cons, not_or] at h
    rw [registerCensus, Multiset.count_add, count_levelCensus, if_neg h.1, ih h.2]

/-- **What is done to each of distinct qubits**, by the number of qubits above it. -/
theorem count_registerCensus {kind : Kind} {qubits : List Qubit} (hnodup : qubits.Nodup) :
    ∀ {t : ℕ} (ht : t < qubits.length), kind.target = qubits[t] →
      (registerCensus qubits).count (some kind) = kind.share (qubits.length - 1 - t) := by
  induction qubits with
  | nil => exact fun ht => absurd ht (Nat.not_lt_zero _)
  | cons q above ih =>
    intro t ht htarget
    obtain ⟨hq, hnodup⟩ := List.nodup_cons.mp hnodup
    rw [registerCensus, Multiset.count_add, count_levelCensus]
    cases t with
    | zero =>
      rw [List.getElem_cons_zero] at htarget
      rw [if_pos htarget, count_registerCensus_of_notMem (htarget ▸ hq), add_zero,
        List.length_cons, Nat.add_sub_cancel, Nat.sub_zero]
    | succ t =>
      rw [List.length_cons] at ht
      rw [List.getElem_cons_succ] at htarget
      have hne : kind.target ≠ q := by
        rintro rfl
        exact hq (htarget ▸ List.getElem_mem (by omega))
      have hplace : (q :: above).length - 1 - (t + 1) = above.length - 1 - t := by
        rw [List.length_cons]
        omega
      rw [if_neg hne, zero_add, hplace]
      exact ih hnodup (by omega) htarget

/-! ### Prepared trees -/

section Prepared

variable [Analytic α] {s : Settings α} {amps : List (Amplitude α)} {register : List Qubit}

theorem stats_ofDisentangler (s : Settings α) (width : ℕ) (trees : List (GateTree α))
    (left : List (Amplitude α)) :
    let p := Preparation.ofDisentangler s width trees left
    p.stats.before = (GateTree.flattenAll trees).length ∧ p.stats.after = p.tree.leafCount := by
  intro p
  have htree : p.tree.leafCount = (keptOperations s trees).length := by
    rw [← GateTree.length_flatten, flatten_tree_ofDisentangler, List.length_reverse,
      List.length_map]
  rw [htree, GateTree.length_flattenAll]
  unfold p Preparation.ofDisentangler keptOperations
  dsimp only
  split
  · refine ⟨rfl, ?_⟩
    rw [← flattenAll_simplify s ⟨"initialize", trees⟩, GateTree.length_flattenAll]
    rfl
  · exact ⟨rfl, (GateTree.length_flattenAll trees).symm⟩

/-- A tree that is not simplified has the kinds of the multiplexors that it undoes. -/
theorem census_leaves_ofDisentangler (hsimplify : s.simplify = false) (width : ℕ)
    (trees : List (GateTree α)) (left : List (Amplitude α)) :
    census (Preparation.ofDisentangler s width trees left).tree.leaves =
      census (GateTree.flattenAll trees) := by
  have hkept : keptOperations s trees = GateTree.flattenAll trees :=
    if_neg (by rw [hsimplify]; decide)
  rw [GateTree.leaves_eq_flatten, flatten_tree_ofDisentangler, hkept, census_reverse,
    census_map_inverse]

/-- **The gates of a preparation**, whatever the amplitudes. On `n` qubits the multiplexors have
`2 ^ (n + 2) - 6` gates, and the prepared tree has no more: rotations of qubits of the register
about the `y` and the `z` axis, and flips of them with the control above the target. If nothing is
taken out and the qubits are distinct, there are as many rotations of a qubit about each of the two
axes as values of the qubits above it, and twice as many flips unless no qubit is above it. -/
theorem prepare_gateCount (h : Accepted s amps register) :
    ∃ p, prepare s amps register = .ok p ∧
      p.stats.before = 2 ^ (register.length + 2) - 6 ∧
      p.stats.after = p.tree.leafCount ∧ p.tree.leafCount ≤ p.stats.before ∧
      (∀ op ∈ p.tree.leaves, IsPart ⟨register, .y⟩ op ∨ IsPart ⟨register, .z⟩ op) ∧
      (s.simplify = false → register.Nodup → ∀ t (ht : t < register.length),
        let kinds := census p.tree.leaves
        kinds.count (some (.rotation .y register[t])) = 2 ^ (register.length - 1 - t) ∧
        kinds.count (some (.rotation .z register[t])) = 2 ^ (register.length - 1 - t) ∧
        kinds.count (some (.flip register[t])) =
          if t < register.length - 1 then 2 ^ (register.length - t) else 0) := by
  obtain ⟨p, hp⟩ := exists_prepare_iff.mpr h
  have hparts := isPart_of_prepare hp
  rw [← GateTree.leaves_eq_flatten] at hparts
  obtain ⟨-, hpos, hlen, -, trees, left, htrees, rfl⟩ := prepare_eq_ok_iff.mp hp
  obtain ⟨hbefore, hafter⟩ := stats_ofDisentangler s register.length trees left
  have hcensus := census_disentangler List.drop_zero hlen htrees
  have hcard : (GateTree.flattenAll trees).length = 2 ^ (register.length + 2) - 6 := by
    rw [← card_registerCensus (List.length_pos_iff.mp hpos), ← hcensus, census, Multiset.coe_card,
      List.length_map]
  refine ⟨_, hp, hbefore.trans hcard, hafter, ?_, hparts, ?_⟩
  · rw [← hafter]
    exact after_le_before_ofDisentangler register.length trees left
  · intro hsimplify hnodup t ht kinds
    have hkinds : kinds = registerCensus register :=
      (census_leaves_ofDisentangler hsimplify register.length trees left).trans hcensus
    have hcount (kind : Kind) (htarget : kind.target = register[t]) :
        kinds.count (some kind) = kind.share (register.length - 1 - t) := by
      rw [hkinds, count_registerCensus hnodup ht htarget]
    exact ⟨hcount _ rfl, hcount _ rfl, (hcount _ rfl).trans (share_flip _ _ _)⟩

end Prepared

/-- Two qubits with the same amplitude for all their values. -/
theorem prepare_gateCount_uniform :
    Accepted ⟨1 / 8, false⟩ (List.replicate 4 (⟨1 / 2, 0⟩ : Amplitude ℝ)) [⟨3⟩, ⟨1⟩] ∧
      ∃ p, prepare ⟨1 / 8, false⟩ (List.replicate 4 (⟨1 / 2, 0⟩ : Amplitude ℝ)) [⟨3⟩, ⟨1⟩] = .ok p ∧
        p.stats.before = 10 ∧ (census p.tree.leaves).count (some (.flip ⟨3⟩)) = 4 := by
  have haccepted := accepted_uniform false ⟨3⟩ ⟨1⟩
  obtain ⟨p, hp, hbefore, -, -, -, hcounts⟩ := prepare_gateCount haccepted
  obtain ⟨-, -, hflips⟩ := hcounts rfl (by decide) 0 (by decide)
  exact ⟨haccepted, p, hp, hbefore, hflips⟩

end StatePrep
