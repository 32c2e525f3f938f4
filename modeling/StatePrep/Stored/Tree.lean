import StatePrep.Stored.Gate
import StatePrep.Tree.Basic

/-! # Stored trees

Gate trees as documents: a leaf under the name `Leaf` with its operation, a composite under the name
`Composite` with a record of its name and its children. This spelling is the representation assumed
of the serialization library, not code of the program. -/

namespace StatePrep

variable {α : Type} [Scalar α]

/-- A name with the documents of children, kept as a record. -/
def Document.ofComposite (name : String) (children : List (Document α)) : Document α :=
  .record [("name", .text name), ("children", .list children)]

namespace GateTree

mutual

/-- A tree, kept under the name of its variant. -/
def toDocument : GateTree α → Document α
  | .leaf op => .record [("Leaf", op.toDocument)]
  | .composite name children =>
    .record [("Composite", .ofComposite name (toDocumentAll children))]

def toDocumentAll : List (GateTree α) → List (Document α)
  | [] => []
  | t :: ts => t.toDocument :: toDocumentAll ts

end

mutual

def ofDocument? (d : Document α) : Option (GateTree α) :=
  match _h : d.variant? with
  | some ("Leaf", some content) => (Operation.ofDocument? content).map .leaf
  | some ("Composite", some content) => (compositeOfDocument? content).map Composite.toTree
  | _ => none
termination_by sizeOf d
decreasing_by exact Document.sizeOf_lt_of_variant? _h

/-- Reads a composite without the name of its variant. -/
def compositeOfDocument? (d : Document α) : Option (Composite α) :=
  match _h : d.parts? ["name", "children"] with
  | some [.text name, .list children] => (ofDocumentAll? children).map (Composite.mk name)
  | _ => none
termination_by sizeOf d
decreasing_by
  have := Document.sizeOf_lt_of_mem_parts? _h (List.mem_cons_of_mem _ (List.mem_singleton_self _))
  simp at this
  omega

/-- Reads a list of trees, which fails if any of them does. -/
def ofDocumentAll? (ds : List (Document α)) : Option (List (GateTree α)) :=
  match ds with
  | [] => some []
  | d :: ds => return (← ofDocument? d) :: (← ofDocumentAll? ds)
termination_by sizeOf ds
decreasing_by all_goals simp; try omega

end

end GateTree

namespace Composite

/-- A composite, kept as a record of its name and its children. -/
def toDocument (c : Composite α) : Document α :=
  .ofComposite c.name (GateTree.toDocumentAll c.children)

def ofDocument? (d : Document α) : Option (Composite α) := GateTree.compositeOfDocument? d

end Composite

end StatePrep
