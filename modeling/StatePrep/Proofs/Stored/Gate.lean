import StatePrep.Proofs.Stored.Faithful
import StatePrep.Stored.Gate

/-! # Gates that are kept and read back

A qubit is read back from its number and from its record, an axis from its name, and a gate if all
its angles are finite (`Gate.faithful`). The name of a gate or an axis may also be that of a field
which holds nothing. An operation can be kept if its gate can (`Operation.faithful`). -/

namespace StatePrep

open Document

variable {α : Type}

namespace Qubit

theorem faithful :
    Faithful (fun _ => True) toDocument (ofDocument? : Document α → Option Qubit) := by
  refine faithful_of (fun q _ => ?_) fun _ _ _ => trivial
  have hbit : q.bit < UInt32.size := q.number.toNat_lt
  rw [toDocument, ofDocument?, (faithful_natBelow UInt32.size).read_write q.bit hbit,
    Option.map_some, bit, UInt32.ofNat_toNat]

theorem faithful_toRecord :
    Faithful (fun _ => True) toRecord (ofRecord? : Document α → Option Qubit) := by
  refine faithful_of (fun q _ => ?_) fun _ _ _ => trivial
  exact faithful.read_write q trivial

end Qubit

theorem Axis.faithful :
    Faithful (fun _ => True) toDocument (ofDocument? : Document α → Option Axis) := by
  refine faithful_of (fun axis _ => ?_) fun _ _ _ => trivial
  cases axis <;> rfl

theorem Axis.ofDocument?_record_null (name : String) :
    ofDocument? (.record [(name, .null)] : Document α) =
      ofDocument? (.text name : Document α) := by
  rw [ofDocument?, ofDocument?, variant?, variant?]
  grind [unit?]

namespace Gate

/-- The angles of a gate, also those of the general gate. -/
def angles : Gate α → List α
  | .x | .cx => []
  | .rx theta | .ry theta | .rz theta => [theta]
  | .u theta phi lambda => [theta, phi, lambda]

variable [Scalar α]

/-- Every angle of the gate is finite. -/
def IsFinite (g : Gate α) : Prop := ∀ x ∈ g.angles, Scalar.isFinite x = true

theorem map_scalar?_ofScalar {f : α → Gate α} {theta : α} (hangles : (f theta).angles = [theta])
    (h : (f theta).IsFinite) : (ofScalar theta).scalar?.map f = some (f theta) := by
  rw [IsFinite, hangles, List.forall_mem_singleton] at h
  rw [faithful_scalar.read_write theta h]
  rfl

theorem ofDocument?_toDocument {g : Gate α} (h : g.IsFinite) :
    ofDocument? g.toDocument = some g := by
  cases g with
  | x => rfl
  | cx => rfl
  | rx theta => exact map_scalar?_ofScalar rfl h
  | ry theta => exact map_scalar?_ofScalar rfl h
  | rz theta => exact map_scalar?_ofScalar rfl h
  | u theta phi lambda =>
    have htheta := faithful_scalar.read_write theta (h theta (by simp [angles]))
    have hphi := faithful_scalar.read_write phi (h phi (by simp [angles]))
    have hlambda := faithful_scalar.read_write lambda (h lambda (by simp [angles]))
    simp [toDocument, ofDocument?, variant?, htheta, hphi, hlambda]

theorem isFinite_of_unit? {g g' : Gate α} {content : Option (Document α)} (hangles : g'.angles = [])
    (h : unit? g' content = some g) : g.IsFinite := by
  obtain rfl : g' = g := by
    unfold unit? at h
    split at h
    · exact Option.some.inj h
    · exact Option.some.inj h
    · cases h
  rw [IsFinite, hangles]
  exact fun x hx => nomatch hx

theorem isFinite_of_map_scalar? {f : α → Gate α} {d : Document α} {g : Gate α}
    (hangles : ∀ theta, (f theta).angles = [theta]) (h : d.scalar?.map f = some g) :
    g.IsFinite := by
  obtain ⟨theta, htheta, rfl⟩ := Option.map_eq_some_iff.mp h
  rw [IsFinite, hangles, List.forall_mem_singleton]
  exact faithful_scalar.storable d theta htheta

theorem isFinite_of_ofDocument? {d : Document α} {g : Gate α} (h : ofDocument? d = some g) :
    g.IsFinite := by
  unfold ofDocument? at h
  split at h
  · exact isFinite_of_unit? rfl h
  · exact isFinite_of_map_scalar? (fun _ => rfl) h
  · exact isFinite_of_map_scalar? (fun _ => rfl) h
  · exact isFinite_of_map_scalar? (fun _ => rfl) h
  · obtain ⟨theta, htheta, h⟩ := Option.bind_eq_some_iff.mp h
    obtain ⟨phi, hphi, h⟩ := Option.bind_eq_some_iff.mp h
    obtain ⟨lambda, hlambda, h⟩ := Option.bind_eq_some_iff.mp h
    cases h
    simp [IsFinite, angles, faithful_scalar.storable _ _ htheta, faithful_scalar.storable _ _ hphi,
      faithful_scalar.storable _ _ hlambda]
  · exact isFinite_of_unit? rfl h
  · cases h

theorem ofDocument?_record_null (name : String) :
    ofDocument? (.record [(name, .null)] : Document α) = ofDocument? (.text name) := by
  rw [ofDocument?, ofDocument?, variant?, variant?]
  grind [unit?, scalar?]

theorem faithful : Faithful (IsFinite (α := α)) toDocument ofDocument? :=
  faithful_of (fun _ h => ofDocument?_toDocument h) fun _ _ h => isFinite_of_ofDocument? h

end Gate

namespace Operation

variable [Scalar α]

/-- Every angle of the gate is finite. -/
def IsFinite (op : Operation α) : Prop := op.gate.IsFinite

theorem faithful : Faithful (IsFinite (α := α)) toDocument ofDocument? := by
  refine faithful_of (fun op h => ?_) fun d op h => ?_
  · change (do return ⟨← Gate.ofDocument? op.gate.toDocument,
      ← listOf? Qubit.ofDocument? (.list (op.operands.map Qubit.toDocument))⟩) = some op
    have hoperands := (faithful_listOf (Qubit.faithful (α := α))).read_write op.operands
      fun _ _ => trivial
    rw [Gate.faithful.read_write _ h, hoperands]
    rfl
  · unfold ofDocument? at h
    split at h
    · obtain ⟨gate, hgate, h⟩ := Option.bind_eq_some_iff.mp h
      obtain ⟨operands, -, h⟩ := Option.bind_eq_some_iff.mp h
      cases h
      exact Gate.faithful.storable _ _ hgate
    · cases h

end Operation

end StatePrep
