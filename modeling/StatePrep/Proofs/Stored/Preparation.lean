import StatePrep.Number.Binary64
import StatePrep.Proofs.Stored.Tree
import StatePrep.Stored.Preparation

/-! # Preparations that are kept and read back

Settings can be kept if the tolerance is finite, the numbers of a simplification if they have at
most 64 bits, and a preparation if all it consists of can be. With this every kind of value that is
kept has been dealt with, and `stored_faithful` puts them together. -/

namespace StatePrep

open Document

variable {α : Type}

namespace Settings

variable [Scalar α]

/-- The tolerance is finite. -/
def IsFinite (s : Settings α) : Prop := Scalar.isFinite s.tolerance = true

theorem faithful : Faithful (IsFinite (α := α)) toDocument ofDocument? := by
  refine faithful_of (fun s h => ?_) fun d s h => ?_
  · change (do return ⟨← (ofScalar s.tolerance).scalar?, ← (Document.bool s.simplify).bool?⟩) =
      some s
    rw [faithful_scalar.read_write _ h, faithful_bool.read_write _ trivial]
    rfl
  · unfold ofDocument? at h
    split at h
    · obtain ⟨tolerance, htolerance, h⟩ := Option.bind_eq_some_iff.mp h
      obtain ⟨simplify, -, h⟩ := Option.bind_eq_some_iff.mp h
      cases h
      exact faithful_scalar.storable _ _ htolerance
    · cases h

end Settings

namespace SimplifyStats

/-- Every number has at most 64 bits. -/
structure Fits (s : SimplifyStats) : Prop where
  before : s.before < UInt64.size
  after : s.after < UInt64.size
  rotations : s.rotations < UInt64.size
  cxPairs : s.cxPairs < UInt64.size
  passes : s.passes < UInt64.size

theorem faithful : Faithful Fits toDocument (ofDocument? : Document α → Option SimplifyStats) := by
  refine faithful_of (fun s h => ?_) fun d s h => ?_
  · change (do return ⟨← (ofCount s.before : Document α).count?,
      ← (ofCount s.after : Document α).count?, ← (ofCount s.rotations : Document α).count?,
      ← (ofCount s.cxPairs : Document α).count?, ← (ofCount s.passes : Document α).count?⟩) = some s
    rw [faithful_count.read_write _ h.before, faithful_count.read_write _ h.after,
      faithful_count.read_write _ h.rotations, faithful_count.read_write _ h.cxPairs,
      faithful_count.read_write _ h.passes]
    rfl
  · unfold ofDocument? at h
    split at h
    · obtain ⟨before, hbefore, h⟩ := Option.bind_eq_some_iff.mp h
      obtain ⟨after, hafter, h⟩ := Option.bind_eq_some_iff.mp h
      obtain ⟨rotations, hrotations, h⟩ := Option.bind_eq_some_iff.mp h
      obtain ⟨pairs, hpairs, h⟩ := Option.bind_eq_some_iff.mp h
      obtain ⟨passes, hpasses, h⟩ := Option.bind_eq_some_iff.mp h
      cases h
      exact ⟨faithful_count.storable _ _ hbefore, faithful_count.storable _ _ hafter,
        faithful_count.storable _ _ hrotations, faithful_count.storable _ _ hpairs,
        faithful_count.storable _ _ hpasses⟩
    · cases h

end SimplifyStats

namespace Preparation

variable [Scalar α]

/-- Every number is finite, and every count has at most 64 bits. -/
structure IsStorable (p : Preparation α) : Prop where
  tree : p.tree.IsFinite
  phase : p.phase.IsFinite
  width : p.width < UInt64.size
  stats : p.stats.Fits

theorem faithful : Faithful (IsStorable (α := α)) toDocument ofDocument? := by
  refine faithful_of (fun p h => ?_) fun d p h => ?_
  · change (do return ⟨← GateTree.ofDocument? p.tree.toDocument,
      ← Amplitude.ofDocument? p.phase.toDocument, ← (ofCount p.width : Document α).count?,
      ← SimplifyStats.ofDocument? (p.stats.toDocument : Document α)⟩) = some p
    rw [GateTree.faithful.read_write _ h.tree, Amplitude.faithful.read_write _ h.phase,
      faithful_count.read_write _ h.width, SimplifyStats.faithful.read_write _ h.stats]
    rfl
  · unfold ofDocument? at h
    split at h
    · obtain ⟨tree, htree, h⟩ := Option.bind_eq_some_iff.mp h
      obtain ⟨phase, hphase, h⟩ := Option.bind_eq_some_iff.mp h
      obtain ⟨width, hwidth, h⟩ := Option.bind_eq_some_iff.mp h
      obtain ⟨stats, hstats, h⟩ := Option.bind_eq_some_iff.mp h
      cases h
      exact ⟨GateTree.faithful.storable _ _ htree, Amplitude.faithful.storable _ _ hphase,
        faithful_count.storable _ _ hwidth, SimplifyStats.faithful.storable _ _ hstats⟩
    · cases h

end Preparation

/-- **What is kept is read back**, for every kind of value: qubits as operands and of their own,
axes, gates, operations, composites, trees, settings, the numbers of a simplification and
preparations. Values with finite numbers and counts of at most 64 bits are read from what is written
of them, no others are ever read, and what is written of a value that was read is the canonical form
of the document, which is read as the same value. The parts of a structure are read from the list of
them and from a record of them in any order, with any other fields among them, and the name of a
gate or an axis is read as it is or as a field that holds nothing. -/
theorem stored_faithful (α : Type) [Scalar α] :
    (Faithful (fun _ => True) Qubit.toDocument (Qubit.ofDocument? : Document α → Option Qubit) ∧
      Faithful (fun _ => True) Qubit.toRecord (Qubit.ofRecord? : Document α → Option Qubit) ∧
      Faithful (fun _ => True) Axis.toDocument (Axis.ofDocument? : Document α → Option Axis) ∧
      Faithful (Gate.IsFinite (α := α)) Gate.toDocument Gate.ofDocument? ∧
      Faithful (Operation.IsFinite (α := α)) Operation.toDocument Operation.ofDocument? ∧
      Faithful (Composite.IsFinite (α := α)) Composite.toDocument Composite.ofDocument? ∧
      Faithful (GateTree.IsFinite (α := α)) GateTree.toDocument GateTree.ofDocument? ∧
      Faithful (Settings.IsFinite (α := α)) Settings.toDocument Settings.ofDocument? ∧
      Faithful SimplifyStats.Fits SimplifyStats.toDocument
        (SimplifyStats.ofDocument? : Document α → Option SimplifyStats) ∧
      Faithful (Preparation.IsStorable (α := α)) Preparation.toDocument Preparation.ofDocument?) ∧
    (∀ (names : List String) (parts : List (Document α)), names.Nodup →
      parts.length = names.length → Document.parts? names (.list parts) = some parts ∧
        ∀ fields others : List (String × Document α), (∀ f ∈ others, f.1 ∉ names) →
          fields.Perm (names.zip parts ++ others) →
            Document.parts? names (.record fields) = some parts) ∧
    ∀ name : String,
      Gate.ofDocument? (.record [(name, .null)] : Document α) = Gate.ofDocument? (.text name) ∧
      Axis.ofDocument? (.record [(name, .null)] : Document α) =
        Axis.ofDocument? (.text name : Document α) :=
  ⟨⟨Qubit.faithful, Qubit.faithful_toRecord, Axis.faithful, Gate.faithful, Operation.faithful,
    Composite.faithful, GateTree.faithful, Settings.faithful, SimplifyStats.faithful,
    Preparation.faithful⟩, fun _ _ hnodup hlen => parts?_of_perm hnodup hlen,
    fun name => ⟨Gate.ofDocument?_record_null name, Axis.ofDocument?_record_null name⟩⟩

/-- A tree spelled in other ways than it is written: an operation as the list of its parts, a
variant that holds nothing, fields in another order and one too many, and an angle as a whole
number. -/
theorem stored_faithful_respelled :
    let flip : Document Float := .record [("Leaf", .list [.record [("X", .null)],
      .list [.integer 3]])]
    let general : Document Float := .record [("Leaf", .record [("qubits", .list [.integer 0]),
      ("gate", .record [("U", .list [.integer 1, .number 0.5, .number (-0.0)])])])]
    let d : Document Float := .record [("Composite", .record [("comment", .null),
      ("children", .list [flip, general]), ("name", .text "outer")])]
    let t : GateTree Float := .composite "outer" [.leaf ⟨.x, [⟨3⟩]⟩,
      .leaf ⟨.u 1 0.5 (-0.0), [⟨0⟩]⟩]
    GateTree.ofDocument? d = some t ∧ t.IsFinite ∧ GateTree.ofDocument? t.toDocument = some t := by
  intro flip general d t
  have hchildren : GateTree.ofDocumentAll? [flip, general] =
      some [.leaf ⟨.x, [⟨3⟩]⟩, .leaf ⟨.u 1 0.5 (-0.0), [⟨0⟩]⟩] := by
    rw [GateTree.ofDocumentAll?, GateTree.ofDocumentAll?, GateTree.ofDocumentAll?,
      GateTree.ofDocument?_leaf, GateTree.ofDocument?_leaf]
    rfl
  have hread : GateTree.ofDocument? d = some t := by
    rw [GateTree.ofDocument?_composite, GateTree.compositeOfDocument?]
    change Option.map _ (Option.map _ (GateTree.ofDocumentAll? [flip, general])) = _
    rw [hchildren]
    rfl
  obtain ⟨⟨-, -, -, -, -, -, htree, -⟩, -⟩ := stored_faithful Float
  exact ⟨hread, htree.storable d t hread, (htree.canonical d t hread).1⟩

end StatePrep
