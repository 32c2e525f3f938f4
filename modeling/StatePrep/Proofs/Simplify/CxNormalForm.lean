import StatePrep.Proofs.Simplify.FreeReduction
import StatePrep.Proofs.Tree.Leaves
import StatePrep.Proofs.Tree.OuterLeaf
import StatePrep.Simplify

/-! # One pass of cancellation reaches the normal form

The pass works on a tree, from the inside out and by addresses of leaves. What it leaves of the
sequence of leaves is the free reduction of that sequence (`flattenAll_cancelAll`), so one pass is
enough and the nesting of the composites plays no part.

Among siblings, `Scanned k` is what the scan keeps true when it looks at the sibling at `k`: each
sibling is reduced by itself, and the siblings up to this one are so together. A cancellation goes
one sibling back because of the second part (`Scanned.cancel`), and moving on is allowed once the
two leaves that meet behind the sibling do not cancel (`Scanned.advance`). -/

namespace StatePrep

variable {α : Type}

namespace CxCancellation

open GateTree

/-! ### One pair of siblings -/

/-- **What is done to a pair of siblings** is decided by the last leaf below the left one and the
first leaf below the right one: if they cancel, both are gone, and nothing else. -/
theorem cancelAt?_append (pre post : List (GateTree α)) {l r : GateTree α} (hl : l.flatten ≠ [])
    (hr : r.flatten ≠ []) : ∃ (op next : Operation α) (l' r' : Option (GateTree α)),
      l.flatten = flattenAll l'.toList ++ [op] ∧ r.flatten = next :: flattenAll r'.toList ∧
      (l.IsTrim → AllTrim l'.toList) ∧ (r.IsTrim → AllTrim r'.toList) ∧
      cancelAt? (pre ++ l :: r :: post) pre.length =
        if op.cancels next then some (pre ++ (l'.toList ++ (r'.toList ++ post))) else none := by
  obtain ⟨left, hleft⟩ := Option.ne_none_iff_exists'.mp
    (mt (outerPath?_eq_none_iff Side.last l).mp hl)
  obtain ⟨right, hright⟩ := Option.ne_none_iff_exists'.mp
    (mt (outerPath?_eq_none_iff Side.first r).mp hr)
  obtain ⟨op, _, leadsL⟩ := exists_leadsTo l hleft
  obtain ⟨next, _, leadsR⟩ := exists_leadsTo r hright
  obtain rfl := leadsL.flatten_without
  obtain rfl := leadsR.flatten_without
  refine ⟨op, next, l.without left, r.without right, leadsL.flatten_eq, leadsR.flatten_eq,
    leadsL.trim, leadsR.trim, ?_⟩
  have hsplit : pre ++ l :: r :: post = (pre ++ [l]) ++ r :: post := by simp
  have hlen : pre.length + 1 = (pre ++ [l]).length := by simp
  have findL : outerPathAt? .last (pre ++ l :: r :: post) pre.length =
      some (pre.length :: left) := by simp [outerPathAt?, hleft]
  have findR : outerPathAt? .first (pre ++ l :: r :: post) (pre.length + 1) =
      some ((pre.length + 1) :: right) := by
    rw [hsplit, hlen, outerPathAt?]; simp [hright]
  have getL : getLeaf? (pre ++ l :: r :: post) (pre.length :: left) = some op := by
    rw [getLeaf?_append_cons, leadsL.leaf]
  have getR : getLeaf? (pre ++ l :: r :: post) ((pre.length + 1) :: right) = some next := by
    rw [hsplit, hlen, getLeaf?_append_cons, leadsR.leaf]
  have eraseR : eraseLeaf (pre ++ l :: r :: post) ((pre.length + 1) :: right) =
      pre ++ l :: ((r.without right).toList ++ post) := by
    rw [hsplit, hlen, eraseLeaf_append_cons _ _ leadsR.leaf, List.append_assoc,
      List.singleton_append]
  unfold cancelAt?
  simp only [findL, findR, getL, getR, eraseR, eraseLeaf_append_cons _ _ leadsL.leaf]

/-! ### The scan over siblings -/

/-- What the scan keeps true at the sibling at `k`. -/
structure Scanned (k : ℕ) (ts : List (GateTree α)) : Prop where
  trim : AllTrim ts
  each : ∀ t ∈ ts, IsReduced t.flatten
  front : IsReduced (flattenAll (ts.take (k + 1)))

theorem exists_two_siblings {ts : List (GateTree α)} {k : ℕ} (hk : k + 1 < ts.length) :
    ∃ pre l r post, ts = pre ++ l :: r :: post ∧ k = pre.length := by
  refine ⟨ts.take k, ts[k], ts[k + 1], ts.drop (k + 2), ?_, by simp; omega⟩
  rw [← List.drop_eq_getElem_cons hk, ← List.drop_eq_getElem_cons, List.take_append_drop]

theorem Scanned.start {ts : List (GateTree α)} (trim : AllTrim ts)
    (each : ∀ t ∈ ts, IsReduced t.flatten) : Scanned 0 ts := by
  refine ⟨trim, each, ?_⟩
  cases ts with
  | nil => exact List.isChain_nil
  | cons t ts => simpa [flattenAll] using each t (by simp)

/-- **A cancellation** takes a cancelling pair out of the leaves, and what was known up to the
sibling before still holds. -/
theorem Scanned.cancel {k : ℕ} {ts us : List (GateTree α)} (h : Scanned k ts)
    (hk : k + 1 < ts.length) (hus : cancelAt? ts k = some us) :
    Scanned (k - 1) us ∧ freeReduce (flattenAll us) = freeReduce (flattenAll ts) := by
  obtain ⟨pre, l, r, post, rfl, rfl⟩ := exists_two_siblings hk
  obtain ⟨trimPre, trimL, trimR, trimPost⟩ :
      AllTrim pre ∧ l.IsTrim ∧ r.IsTrim ∧ AllTrim post := by
    simpa only [allTrim_append, AllTrim] using h.trim
  obtain ⟨op, next, l', r', hl, hr, hl', hr', hc⟩ :=
    cancelAt?_append pre post (flatten_ne_nil trimL) (flatten_ne_nil trimR)
  rw [hc] at hus
  split at hus
  · next hcancel =>
    cases hus
    have redL := h.each l (by simp)
    have redR := h.each r (by simp)
    rw [hl] at redL
    rw [hr] at redR
    have each : ∀ t ∈ pre ++ (l'.toList ++ (r'.toList ++ post)), IsReduced t.flatten := by
      intro t ht
      simp only [List.mem_append, Option.mem_toList] at ht
      rcases ht with ht | rfl | rfl | ht
      · exact h.each t (by simp [ht])
      · simpa [flattenAll, IsReduced] using redL.left_of_append
      · simpa [flattenAll, IsReduced] using redR.tail
      · exact h.each t (by simp [ht])
    have trim : AllTrim (pre ++ (l'.toList ++ (r'.toList ++ post))) := by
      simp only [allTrim_append]
      exact ⟨trimPre, hl' trimL, hr' trimR, trimPost⟩
    constructor
    · by_cases hpre : pre = []
      · subst hpre
        exact Scanned.start trim each
      · have hpos : pre.length - 1 + 1 = pre.length :=
          Nat.sub_add_cancel (List.length_pos_iff.mpr hpre)
        have front := h.front
        rw [List.take_length_add_append, flattenAll_append] at front
        refine ⟨trim, each, ?_⟩
        rw [hpos, List.take_left]
        exact front.left_of_append
    · simp only [flattenAll_append, flattenAll, hl, hr]
      have := freeReduce_append_cancel (flattenAll pre ++ flattenAll l'.toList)
        (flattenAll r'.toList ++ flattenAll post) hcancel
      simpa using this.symm
  · cases hus

/-- **Moving on**: the two leaves that meet behind the sibling at `k` do not cancel. -/
theorem Scanned.advance {k : ℕ} {ts : List (GateTree α)} (h : Scanned k ts)
    (hk : k + 1 < ts.length) (hnone : cancelAt? ts k = none) : Scanned (k + 1) ts := by
  obtain ⟨pre, l, r, post, rfl, rfl⟩ := exists_two_siblings hk
  obtain ⟨trimL, trimR⟩ : l.IsTrim ∧ r.IsTrim := by
    have := h.trim
    simp only [allTrim_append, AllTrim] at this
    exact ⟨this.2.1, this.2.2.1⟩
  obtain ⟨op, next, l', r', hl, hr, -, -, hc⟩ :=
    cancelAt?_append pre post (flatten_ne_nil trimL) (flatten_ne_nil trimR)
  refine ⟨h.trim, h.each, ?_⟩
  have front := h.front
  have redR := h.each r (by simp)
  have hcancel : op.cancels next = false := by
    by_contra hne
    rw [hc, if_pos (by simpa using hne)] at hnone
    cases hnone
  rw [List.take_length_add_append, List.take_succ_cons, List.take_zero, flattenAll_append,
    flattenAll, flattenAll, hl, List.append_nil, ← List.append_assoc] at front
  rw [hr] at redR
  rw [Nat.add_assoc, List.take_length_add_append, List.take_succ_cons, List.take_succ_cons,
    List.take_zero, flattenAll_append, flattenAll, flattenAll, flattenAll, hl, hr, List.append_nil,
    List.append_assoc, List.singleton_append, ← List.append_assoc]
  exact List.isChain_append_cons_cons.mpr ⟨front, hcancel, redR⟩

/-- **The scan reaches the normal form** of the leaves of its siblings. -/
theorem cancelFrom_spec {k : ℕ} {ts : List (GateTree α)} (h : Scanned k ts) :
    AllTrim (cancelFrom k ts).1 ∧
      flattenAll (cancelFrom k ts).1 = freeReduce (flattenAll ts) := by
  fun_induction cancelFrom k ts with
  | case1 k ts hk us hus later ih =>
    obtain ⟨hscan, hred⟩ := h.cancel hk hus
    rw [← hred]
    exact ih hscan
  | case2 k ts hk hnone ih => exact ih (h.advance hk hnone)
  | case3 k ts hk =>
    refine ⟨h.trim, ?_⟩
    have front := h.front
    rw [List.take_of_length_le (by omega)] at front
    exact (freeReduce_of_isReduced front).symm

/-! ### The whole tree -/

mutual

/-- What is left of a tree is trim, and its leaves are the free reduction of those of the tree. -/
theorem cancelIn_spec : ∀ t : GateTree α, AllTrim (cancelIn t).1.toList ∧
    flattenAll (cancelIn t).1.toList = freeReduce t.flatten
  | .leaf op => ⟨⟨trivial, trivial⟩, rfl⟩
  | .composite name children => by
    obtain ⟨hscan, hred⟩ := cancelInEach_spec children
    obtain ⟨htrim, hflat⟩ := cancelFrom_spec hscan
    rw [cancelIn, flatten]
    dsimp only
    rw [hred] at hflat
    split
    · next hempty =>
      rw [List.isEmpty_iff.mp hempty] at hflat
      exact ⟨trivial, hflat⟩
    · next hne =>
      refine ⟨⟨⟨by simpa using hne, htrim⟩, trivial⟩, ?_⟩
      simpa [flattenAll, flatten] using hflat

theorem cancelInEach_spec : ∀ ts : List (GateTree α), Scanned 0 (cancelInEach ts).1 ∧
    freeReduce (flattenAll (cancelInEach ts).1) = freeReduce (flattenAll ts)
  | [] => ⟨Scanned.start trivial (by simp [cancelInEach]), rfl⟩
  | t :: ts => by
    obtain ⟨htrim, hflat⟩ := cancelIn_spec t
    obtain ⟨hscan, hred⟩ := cancelInEach_spec ts
    have hidem : freeReduce (freeReduce t.flatten) = freeReduce t.flatten :=
      freeReduce_of_isReduced (isReduced_freeReduce _)
    rw [cancelInEach, flattenAll]
    dsimp only
    refine ⟨Scanned.start (allTrim_append.mpr ⟨htrim, hscan.trim⟩) ?_, ?_⟩
    · intro u hu
      rcases List.mem_append.mp hu with hu | hu
      · rw [Option.mem_toList] at hu
        rw [hu] at hflat
        have : u.flatten = freeReduce t.flatten := by simpa [flattenAll] using hflat
        rw [this]
        exact isReduced_freeReduce _
      · exact hscan.each u hu
    · rw [flattenAll_append, hflat]
      exact freeReduce_append_congr hidem hred

end

/-- **Cancelling below a list of trees freely reduces its leaves.** -/
theorem flattenAll_cancelAll (ts : List (GateTree α)) :
    flattenAll (cancelAll ts).1 = freeReduce (flattenAll ts) := by
  obtain ⟨hscan, hred⟩ := cancelInEach_spec ts
  rw [← hred]
  exact (cancelFrom_spec hscan).2

end CxCancellation

/-- **One pass reaches the normal form.** After one run of the pass the leaves are the free
reduction of what they were. So no two neighbours among them cancel, all operations that are not
flips are still there, in the same order, and the nesting of the composites makes no difference. -/
theorem leaves_run_cxCancellationPass (s : Settings α) (c : Composite α) :
    (cxCancellationPass.run s c).1.toTree.leaves = freeReduce c.toTree.leaves ∧
      (cxCancellationPass.run s c).1.toTree.leaves.IsChain
        (fun op next => op.cancels next = false) ∧
      (cxCancellationPass.run s c).1.toTree.leaves.filter (fun op => !op.isCx) =
        c.toTree.leaves.filter (fun op => !op.isCx) ∧
      ∀ (s' : Settings α) (d : Composite α), d.toTree.leaves = c.toTree.leaves →
        (cxCancellationPass.run s' d).1.toTree.leaves =
          (cxCancellationPass.run s c).1.toTree.leaves := by
  have key : ∀ (s : Settings α) (c : Composite α),
      (cxCancellationPass.run s c).1.toTree.leaves = freeReduce c.toTree.leaves := by
    intro s c
    rw [GateTree.leaves_eq_flatten, GateTree.leaves_eq_flatten]
    exact CxCancellation.flattenAll_cancelAll c.children
  refine ⟨key s c, ?_, ?_, ?_⟩
  · rw [key s c]
    exact isReduced_freeReduce _
  · rw [key s c]
    exact filter_freeReduce _
  · intro s' d hd
    rw [key s' d, key s c, hd]

end StatePrep
