import StatePrep.Proofs.Stored.Gate
import StatePrep.Stored.Tree

/-! # Trees that are kept and read back

A tree can be kept if the angles of all its leaves are finite, however deeply they are nested
(`GateTree.faithful`). Writing follows the tree. Reading follows the document, but what it gives
follows the tree again, so both halves are proved by recursion on the tree. -/

namespace StatePrep

open Document

variable {α : Type} [Scalar α]

namespace GateTree

/-- All angles of the leaves are finite. -/
def IsFinite (t : GateTree α) : Prop := ∀ op ∈ t.flatten, op.IsFinite

/-- All angles of the leaves below a list of trees are finite. -/
def AllFinite (ts : List (GateTree α)) : Prop := ∀ op ∈ flattenAll ts, op.IsFinite

theorem isFinite_composite {name : String} {ts : List (GateTree α)} :
    (GateTree.composite name ts).IsFinite ↔ AllFinite ts := Iff.rfl

theorem allFinite_cons {t : GateTree α} {ts : List (GateTree α)} :
    AllFinite (t :: ts) ↔ t.IsFinite ∧ AllFinite ts := by
  unfold AllFinite IsFinite
  rw [flattenAll, List.forall_mem_append]

/-! ### What is written is read -/

theorem ofDocument?_leaf (d : Document α) :
    ofDocument? (.record [("Leaf", d)]) = (Operation.ofDocument? d).map .leaf := by
  rw [ofDocument?]
  rfl

theorem ofDocument?_composite (d : Document α) :
    ofDocument? (.record [("Composite", d)]) = (compositeOfDocument? d).map Composite.toTree := by
  rw [ofDocument?]
  rfl

theorem compositeOfDocument?_ofComposite (name : String) (children : List (Document α)) :
    compositeOfDocument? (.ofComposite name children) =
      (ofDocumentAll? children).map (Composite.mk name) := by
  rw [compositeOfDocument?]
  rfl

mutual

theorem ofDocument?_toDocument : ∀ {t : GateTree α}, t.IsFinite →
    ofDocument? t.toDocument = some t
  | .leaf op, h => by
    rw [toDocument, ofDocument?_leaf,
      Operation.faithful.read_write op (h op (List.mem_singleton_self op))]
    rfl
  | .composite name children, h => by
    rw [toDocument, ofDocument?_composite, compositeOfDocument?_ofComposite,
      ofDocumentAll?_toDocumentAll (isFinite_composite.mp h)]
    rfl

theorem ofDocumentAll?_toDocumentAll : ∀ {ts : List (GateTree α)}, AllFinite ts →
    ofDocumentAll? (toDocumentAll ts) = some ts
  | [], _ => by
    rw [toDocumentAll, ofDocumentAll?]
  | t :: ts, h => by
    obtain ⟨ht, hts⟩ := allFinite_cons.mp h
    rw [toDocumentAll, ofDocumentAll?, ofDocument?_toDocument ht, ofDocumentAll?_toDocumentAll hts]
    rfl

end

/-! ### What is read is finite -/

theorem exists_of_ofDocument? {d : Document α} {t : GateTree α} (h : ofDocument? d = some t) :
    (∃ content op, Operation.ofDocument? content = some op ∧ t = .leaf op) ∨
      ∃ content c, compositeOfDocument? content = some c ∧ t = c.toTree := by
  rw [ofDocument?] at h
  split at h
  · obtain ⟨op, hop, rfl⟩ := Option.map_eq_some_iff.mp h
    exact .inl ⟨_, op, hop, rfl⟩
  · obtain ⟨c, hc, rfl⟩ := Option.map_eq_some_iff.mp h
    exact .inr ⟨_, c, hc, rfl⟩
  · cases h

theorem exists_of_compositeOfDocument? {d : Document α} {c : Composite α}
    (h : compositeOfDocument? d = some c) : ∃ ds, ofDocumentAll? ds = some c.children := by
  rw [compositeOfDocument?] at h
  split at h
  · obtain ⟨children, hchildren, rfl⟩ := Option.map_eq_some_iff.mp h
    exact ⟨_, hchildren⟩
  · cases h

mutual

theorem isFinite_of_ofDocument? : ∀ {t : GateTree α} {d : Document α}, ofDocument? d = some t →
    t.IsFinite
  | .leaf op, d, h => by
    rcases exists_of_ofDocument? h with ⟨content, op', hop, heq⟩ | ⟨_, _, _, heq⟩
    · cases heq
      exact List.forall_mem_singleton.mpr (Operation.faithful.storable _ _ hop)
    · cases heq
  | .composite name children, d, h => by
    rcases exists_of_ofDocument? h with ⟨_, _, _, heq⟩ | ⟨content, c, hc, heq⟩
    · cases heq
    · obtain ⟨ds, hds⟩ := exists_of_compositeOfDocument? hc
      cases heq
      exact isFinite_composite.mpr (allFinite_of_ofDocumentAll? hds)

theorem allFinite_of_ofDocumentAll? : ∀ {ts : List (GateTree α)} {ds : List (Document α)},
    ofDocumentAll? ds = some ts → AllFinite ts
  | [], _, _ => fun op hop => nomatch hop
  | t :: ts, [], h => by
    rw [ofDocumentAll?] at h
    cases h
  | t :: ts, d :: ds, h => by
    rw [ofDocumentAll?] at h
    obtain ⟨first, hfirst, h⟩ := Option.bind_eq_some_iff.mp h
    obtain ⟨others, hothers, h⟩ := Option.bind_eq_some_iff.mp h
    cases h
    exact allFinite_cons.mpr ⟨isFinite_of_ofDocument? hfirst, allFinite_of_ofDocumentAll? hothers⟩

end

theorem faithful : Faithful (IsFinite (α := α)) toDocument ofDocument? :=
  faithful_of (fun _ h => ofDocument?_toDocument h) fun _ _ h => isFinite_of_ofDocument? h

end GateTree

namespace Composite

/-- All angles of the leaves are finite. -/
def IsFinite (c : Composite α) : Prop := GateTree.AllFinite c.children

theorem faithful : Faithful (IsFinite (α := α)) toDocument ofDocument? := by
  refine faithful_of (fun c h => ?_) fun d c h => ?_
  · rw [toDocument, ofDocument?, GateTree.compositeOfDocument?_ofComposite,
      GateTree.ofDocumentAll?_toDocumentAll h]
    rfl
  · obtain ⟨ds, hds⟩ := GateTree.exists_of_compositeOfDocument? h
    exact GateTree.allFinite_of_ofDocumentAll? hds

end Composite

end StatePrep
