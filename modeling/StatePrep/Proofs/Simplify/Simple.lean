import StatePrep.Proofs.Simplify.Turned
import StatePrep.Proofs.Synthesis.Outcome

/-! # Simple composites

A composite is simple if every composite below it has a child, no two neighbours among its leaves
cancel and none of its leaves is a zero rotation (`Composite.IsSimple`). Simplification makes a
composite simple (`isSimple_simplify`) and leaves a simple one as it is, down to the names
(`Composite.IsSimple.simplify_eq`), because both passes do.

Turning a simple composite around keeps it simple (`Composite.IsSimple.reverse`,
`Composite.IsSimple.inverse`), so a simplified composite that is turned around has nothing left to
simplify (`simplify_simplify`). A prepared tree is one. -/

namespace StatePrep

open GateTree ZeroRotation CxCancellation

variable {α : Type}

/-! ### Cancelling flips where none meet -/

namespace CxCancellation

theorem cancelAt?_of_isReduced {ts : List (GateTree α)} {k : ℕ} (hk : k + 1 < ts.length)
    (trim : AllTrim ts) (h : IsReduced (flattenAll ts)) : cancelAt? ts k = none := by
  obtain ⟨pre, l, r, post, rfl, rfl⟩ := exists_two_siblings hk
  obtain ⟨-, trimL, trimR, -⟩ : AllTrim pre ∧ l.IsTrim ∧ r.IsTrim ∧ AllTrim post := by
    simpa only [allTrim_append, AllTrim] using trim
  obtain ⟨op, next, l', r', hl, hr, -, -, hc⟩ :=
    cancelAt?_append pre post (flatten_ne_nil trimL) (flatten_ne_nil trimR)
  have hmeet : flattenAll (pre ++ l :: r :: post) = (flattenAll pre ++ flattenAll l'.toList) ++
      op :: next :: (flattenAll r'.toList ++ flattenAll post) := by
    simp [flattenAll, hl, hr]
  rw [hmeet] at h
  have hcancel : op.cancels next = false := (List.isChain_append_cons_cons.mp h).2.1
  rw [hc, hcancel]
  rfl

theorem cancelFrom_of_isReduced (k : ℕ) {ts : List (GateTree α)} (trim : AllTrim ts)
    (h : IsReduced (flattenAll ts)) : cancelFrom k ts = (ts, 0) := by
  fun_induction cancelFrom k ts with
  | case1 k ts hk us hus later ih =>
    rw [cancelAt?_of_isReduced hk trim h] at hus
    cases hus
  | case2 k ts hk hnone ih => exact ih trim h
  | case3 k ts hk => rfl

mutual

theorem cancelIn_of_isReduced : ∀ {t : GateTree α}, t.IsTrim → IsReduced t.flatten →
    cancelIn t = (some t, 0)
  | .leaf _, _, _ => rfl
  | .composite name children, trim, h => by
    have hinner := cancelInEach_of_isReduced trim.2 h
    have houter := cancelFrom_of_isReduced 0 trim.2 h
    have hne : children.isEmpty = false := by simpa using trim.1
    simp only [cancelIn, hinner, houter, hne]
    rfl

theorem cancelInEach_of_isReduced : ∀ {ts : List (GateTree α)}, AllTrim ts →
    IsReduced (flattenAll ts) → cancelInEach ts = (ts, 0)
  | [], _, _ => rfl
  | t :: ts, trim, h => by
    rw [flattenAll] at h
    rw [cancelInEach, cancelIn_of_isReduced trim.1 h.left_of_append,
      cancelInEach_of_isReduced trim.2 h.right_of_append]
    rfl

end

/-- **Cancellation leaves reduced leaves as they are**, and the composites around them. -/
theorem cancelAll_of_isReduced {ts : List (GateTree α)} (trim : AllTrim ts)
    (h : IsReduced (flattenAll ts)) : cancelAll ts = (ts, 0) := by
  unfold cancelAll
  rw [cancelInEach_of_isReduced trim h]
  simp only [cancelFrom_of_isReduced 0 trim h]

theorem allTrim_cancelAll (ts : List (GateTree α)) : AllTrim (cancelAll ts).1 :=
  (cancelFrom_spec (cancelInEach_spec ts).1).1

end CxCancellation

theorem allTrim_exhaust_cxCancellationPass (s : Settings α) (c : Composite α) :
    AllTrim (cxCancellationPass.exhaust s c).result.children := by
  fun_induction Pass.exhaust cxCancellationPass s c with
  | case1 c h => exact allTrim_cancelAll c.children
  | case2 c h later ih => exact ih

/-! ### Turning around -/

theorem reverseAll_ne_nil {ts : List (GateTree α)} (h : ts ≠ []) : reverseAll ts ≠ [] := by
  rw [reverseAll_eq_map]
  simpa using h

theorem inverseAll_ne_nil [Neg α] {ts : List (GateTree α)} (h : ts ≠ []) : inverseAll ts ≠ [] := by
  rw [inverseAll_eq_map]
  simpa using h

mutual

theorem isTrim_reverse : ∀ {t : GateTree α}, t.IsTrim → t.reverse.IsTrim
  | .leaf _, _ => trivial
  | .composite _ _, h => ⟨reverseAll_ne_nil h.1, allTrim_reverseAll h.2⟩

theorem allTrim_reverseAll : ∀ {ts : List (GateTree α)}, AllTrim ts → AllTrim (reverseAll ts)
  | [], _ => trivial
  | t :: ts, h => by
    rw [reverseAll, allTrim_append]
    exact ⟨allTrim_reverseAll h.2, isTrim_reverse h.1, trivial⟩

end

mutual

theorem isTrim_inverse [Neg α] : ∀ {t : GateTree α}, t.IsTrim → t.inverse.IsTrim
  | .leaf _, _ => trivial
  | .composite _ _, h => ⟨inverseAll_ne_nil h.1, allTrim_inverseAll h.2⟩

theorem allTrim_inverseAll [Neg α] : ∀ {ts : List (GateTree α)}, AllTrim ts →
    AllTrim (inverseAll ts)
  | [], _ => trivial
  | t :: ts, h => by
    rw [inverseAll, allTrim_append]
    exact ⟨allTrim_inverseAll h.2, isTrim_inverse h.1, trivial⟩

end

variable [Scalar α]

/-! ### Clearing where there is nothing to clear -/

namespace ZeroRotation

variable {s : Settings α}

mutual

theorem clear_of_clear : ∀ {t : GateTree α}, t.IsTrim →
    (∀ op ∈ t.flatten, isZeroRotation s op = false) → clear s t = (some t, 0)
  | .leaf op, _, h => by
    rw [clear, h op (List.mem_singleton_self op)]
    rfl
  | .composite name children, trim, h => by
    have hinner := clearAll_of_clear trim.2 h
    have hne : children.isEmpty = false := by simpa using trim.1
    simp only [clear, hinner, hne]
    rfl

theorem clearAll_of_clear : ∀ {ts : List (GateTree α)}, AllTrim ts →
    (∀ op ∈ flattenAll ts, isZeroRotation s op = false) → clearAll s ts = (ts, 0)
  | [], _, _ => rfl
  | t :: ts, trim, h => by
    rw [flattenAll, List.forall_mem_append] at h
    rw [clearAll, clear_of_clear trim.1 h.1, clearAll_of_clear trim.2 h.2]
    rfl

end

end ZeroRotation

/-! ### Simple composites -/

/-- A composite in which there is nothing to simplify. -/
structure Composite.IsSimple (s : Settings α) (c : Composite α) : Prop where
  trim : AllTrim c.children
  reduced : IsReduced (flattenAll c.children)
  clear : ∀ op ∈ flattenAll c.children, isZeroRotation s op = false

/-- The numbers of a simplification that found nothing in `gates` gates. -/
def SimplifyStats.settled (gates : ℕ) : SimplifyStats := ⟨gates, gates, 0, 0, 1⟩

variable {s : Settings α} {c : Composite α}

theorem isSimple_simplify (s : Settings α) (c : Composite α) : (c.simplify s).1.IsSimple s := by
  refine ⟨allTrim_exhaust_cxCancellationPass s _, ?_, fun op hop => ?_⟩
  · rw [flattenAll_simplify]
    exact isReduced_freeReduce _
  · rw [flattenAll_simplify] at hop
    have hkept := (List.mem_filter.mp ((freeReduce_sublist _).subset hop)).2
    simpa using hkept

namespace Composite.IsSimple

/-- **A simple composite is left as it is.** -/
theorem simplify_eq (h : c.IsSimple s) : c.simplify s = (c, .settled c.leafCount) := by
  have hcleared : zeroRotationPass.run s c = (c, 0) := by
    change (({ c with children := (clearAll s c.children).1 } : Composite α), _) = _
    rw [clearAll_of_clear h.trim h.clear]
  have hcancelled : cxCancellationPass.run s c = (c, 0) := by
    change (({ c with children := (cancelAll c.children).1 } : Composite α), _) = _
    rw [cancelAll_of_isReduced h.trim h.reduced]
  have hexhausted : cxCancellationPass.exhaust s c = ⟨c, 0, 1⟩ := by
    rw [Pass.exhaust, hcancelled]
    rfl
  unfold Composite.simplify
  simp only [hcleared, hexhausted]
  rfl

theorem of_turnedBy {f : Operation α → Operation α} {d : Composite α} (h : c.IsSimple s)
    (hf : Unseen s f) (hturned : TurnedBy f c d) (trim : AllTrim d.children) : d.IsSimple s := by
  refine ⟨trim, ?_, fun op hop => ?_⟩
  · rw [hturned, isReduced_reverse]
    unfold IsReduced
    rw [List.isChain_map]
    exact h.reduced.imp fun op next hc => (hf.cancels op next).trans hc
  · rw [hturned, List.mem_reverse] at hop
    obtain ⟨kept, hkept, rfl⟩ := List.mem_map.mp hop
    exact (hf.isZeroRotation kept).trans (h.clear kept hkept)

protected theorem reverse (h : c.IsSimple s) : c.reverse.IsSimple s :=
  h.of_turnedBy (unseen_id s) (turnedBy_reverse c) (allTrim_reverseAll h.trim)

protected theorem inverse [EvenSign α] (h : c.IsSimple s) : c.inverse.IsSimple s :=
  h.of_turnedBy (unseen_inverse s) (turnedBy_inverse c) (allTrim_inverseAll h.trim)

end Composite.IsSimple

/-! ### Prepared trees -/

theorem exists_isSimple_of_prepare {α : Type} [Analytic α] [EvenSign α] {s : Settings α}
    {amps : List (Amplitude α)} {register : List Qubit} {p : Preparation α}
    (h : prepare s amps register = .ok p) (hsimplify : s.simplify = true) :
    ∃ e : Composite α, e.toTree = p.tree ∧ e.IsSimple s := by
  obtain ⟨-, -, -, -, trees, left, -, rfl⟩ := prepare_eq_ok_iff.mp h
  refine ⟨((⟨"initialize", trees⟩ : Composite α).simplify s).1.inverse, ?_,
    (isSimple_simplify s _).inverse⟩
  unfold Preparation.ofDisentangler
  simp only [hsimplify, if_true]
  rfl

/-- **Simplification is done after one time.** A simplified composite is simple: there is no
composite without children below it, and among its leaves there are no zero rotation and no two
neighbours that cancel. Simplifying it gives the same composite back, with the numbers of a run that
found nothing, and so it does after the composite has been reversed. If the sign of a number changes
neither its magnitude nor whether it is zero, the same holds of the inverse, and of every tree that
a preparation with the same settings has simplified. -/
theorem simplify_simplify {α : Type} [Analytic α] (s : Settings α) (c : Composite α) :
    let d := (c.simplify s).1
    d.IsSimple s ∧ d.simplify s = (d, .settled d.leafCount) ∧
      d.reverse.simplify s = (d.reverse, .settled d.leafCount) ∧
      (EvenSign α → d.inverse.simplify s = (d.inverse, .settled d.leafCount) ∧
        ∀ amps register p, prepare s amps register = .ok p → s.simplify = true →
          ∃ e : Composite α, e.toTree = p.tree ∧ e.simplify s = (e, .settled e.leafCount)) := by
  intro d
  have hsimple : d.IsSimple s := isSimple_simplify s c
  have hreverse := hsimple.reverse.simplify_eq
  rw [(turnedBy_reverse d).leafCount_eq] at hreverse
  refine ⟨hsimple, hsimple.simplify_eq, hreverse, fun hsign =>
    ⟨?_, fun amps register p hp hsimplify => ?_⟩⟩
  · have hinverse := hsimple.inverse.simplify_eq
    rwa [(turnedBy_inverse d).leafCount_eq] at hinverse
  · obtain ⟨e, he, hesimple⟩ := exists_isSimple_of_prepare hp hsimplify
    exact ⟨e, he, hesimple.simplify_eq⟩

/-- The tree for two qubits with the same amplitude for all their values. -/
theorem simplify_simplify_uniform :
    let amps : List (Amplitude ℝ) := List.replicate 4 ⟨1 / 2, 0⟩
    EvenSign ℝ ∧ ∃ p, prepare ⟨1 / 8, true⟩ amps [⟨3⟩, ⟨1⟩] = .ok p ∧
      ∃ e : Composite ℝ, e.toTree = p.tree ∧
        e.simplify ⟨1 / 8, true⟩ = (e, .settled e.leafCount) := by
  intro amps
  obtain ⟨p, hp⟩ := exists_prepare_iff.mpr (accepted_uniform true ⟨3⟩ ⟨1⟩)
  obtain ⟨-, -, -, hturned⟩ := simplify_simplify ⟨1 / 8, true⟩ (⟨"root", []⟩ : Composite ℝ)
  exact ⟨inferInstance, p, hp, (hturned inferInstance).2 amps [⟨3⟩, ⟨1⟩] p hp rfl⟩

end StatePrep
