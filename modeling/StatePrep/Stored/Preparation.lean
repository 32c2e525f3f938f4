import StatePrep.Stored.Tree
import StatePrep.Synthesis.Preparation

/-! # Stored preparations

Settings, the numbers of a simplification and whole preparations as documents. What is read is not
checked beyond its form: the tolerance may be negative, and the numbers need not fit together. The
spelling is the representation assumed of the serialization library, not code of the program. -/

namespace StatePrep

variable {α : Type}

namespace Settings

variable [Scalar α]

/-- Settings, kept as a record. -/
def toDocument (s : Settings α) : Document α :=
  .record [("epsilon", .ofScalar s.tolerance), ("optimize", .bool s.simplify)]

def ofDocument? (d : Document α) : Option (Settings α) :=
  match d.parts? ["epsilon", "optimize"] with
  | some [tolerance, simplify] => return ⟨← tolerance.scalar?, ← simplify.bool?⟩
  | _ => none

end Settings

namespace SimplifyStats

/-- The numbers of a simplification, kept as a record. -/
def toDocument (s : SimplifyStats) : Document α :=
  .record [("gates_before", .ofCount s.before), ("gates_after", .ofCount s.after),
    ("zero_rotations_removed", .ofCount s.rotations), ("cx_pairs_removed", .ofCount s.cxPairs),
    ("cx_passes", .ofCount s.passes)]

def ofDocument? (d : Document α) : Option SimplifyStats :=
  match d.parts? ["gates_before", "gates_after", "zero_rotations_removed", "cx_pairs_removed",
    "cx_passes"] with
  | some [before, after, rotations, pairs, passes] =>
    return ⟨← before.count?, ← after.count?, ← rotations.count?, ← pairs.count?, ← passes.count?⟩
  | _ => none

end SimplifyStats

namespace Preparation

variable [Scalar α]

/-- A preparation, kept as a record. -/
def toDocument (p : Preparation α) : Document α :=
  .record [("gate", p.tree.toDocument), ("global_phase", p.phase.toDocument),
    ("num_qubits", .ofCount p.width), ("stats", p.stats.toDocument)]

def ofDocument? (d : Document α) : Option (Preparation α) :=
  match d.parts? ["gate", "global_phase", "num_qubits", "stats"] with
  | some [tree, phase, width, stats] =>
    return ⟨← GateTree.ofDocument? tree, ← Amplitude.ofDocument? phase, ← width.count?,
      ← SimplifyStats.ofDocument? stats⟩
  | _ => none

end Preparation

end StatePrep
