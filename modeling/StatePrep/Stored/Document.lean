import StatePrep.Number.Amplitude

/-! # Documents

The form in which values are kept: nested lists and records of texts, truth values and numbers.
Whole numbers are told apart from the others, since counts are only read from whole numbers.

This form, and how values are spelled in it, are those of the serialization library. They are
assumed here as a representation and are not code of the program, which only says which types are
kept. The same holds of the spellings of each type in the other modules on stored values.

A structure is kept as a record with one field for each part. It is read from a record that has
each of these fields once and maybe others, or from a list of exactly its parts in order:
`Document.parts?`. A choice between variants is kept as the name of the variant, alone or as the
one field that holds its content: `Document.variant?`.

`sizeOf_lt_of_mem_parts?` says that the parts of a document are smaller than it, which is why
nested values can be read to the end. -/

namespace StatePrep

/-- A value in the form in which it is kept. -/
inductive Document (α : Type) where
  | null
  | bool (value : Bool)
  /-- A whole number, written as one. -/
  | integer (value : Int)
  /-- Any other number. -/
  | number (value : α)
  | text (value : String)
  | list (items : List (Document α))
  /-- Named fields in order. -/
  | record (fields : List (String × Document α))

namespace Document

variable {α : Type}

/-! ### Structures and variants -/

/-- The content of a field that occurs once. -/
def field? (fields : List (String × Document α)) (name : String) : Option (Document α) :=
  match fields.filter fun f => f.1 == name with
  | [f] => some f.2
  | _ => none

/-- The parts of a structure with the given field names, in their order. -/
def parts? (names : List String) : Document α → Option (List (Document α))
  | .list items => if items.length = names.length then some items else none
  | .record fields => names.mapM (field? fields)
  | _ => none

/-- The name of a variant, and its content if it comes with any. -/
def variant? : Document α → Option (String × Option (Document α))
  | .text name => some (name, none)
  | .record [(name, content)] => some (name, some content)
  | _ => none

theorem sizeOf_lt_of_field? {fields : List (String × Document α)} {name : String} {d : Document α}
    (h : field? fields name = some d) : sizeOf d < sizeOf fields := by
  unfold field? at h
  split at h
  · next f hf =>
    cases h
    have hmem : f ∈ fields := (List.mem_filter.mp (hf ▸ List.mem_singleton_self f)).1
    have := List.sizeOf_lt_of_mem hmem
    obtain ⟨name, content⟩ := f
    simp at this ⊢
    omega
  · cases h

/-- **Parts are smaller** than the structure they are read from. -/
theorem sizeOf_lt_of_mem_parts? {names : List String} {d part : Document α}
    {parts : List (Document α)} (h : d.parts? names = some parts) (hmem : part ∈ parts) :
    sizeOf part < sizeOf d := by
  cases d with
  | list items =>
    rw [parts?] at h
    split at h
    · cases h
      have := List.sizeOf_lt_of_mem hmem
      simp
      omega
    · cases h
  | record fields =>
    rw [parts?] at h
    suffices sizeOf part < sizeOf fields by simp; omega
    induction names generalizing parts with
    | nil => cases h; cases hmem
    | cons name names ih =>
      rw [List.mapM_cons] at h
      obtain ⟨first, hfirst, h⟩ := Option.bind_eq_some_iff.mp h
      obtain ⟨others, hothers, h⟩ := Option.bind_eq_some_iff.mp h
      cases h
      rcases List.mem_cons.mp hmem with rfl | hmem
      · exact sizeOf_lt_of_field? hfirst
      · exact ih hmem hothers
  | null | bool | integer | number | text => cases h

/-- The content of a variant is smaller than the variant. -/
theorem sizeOf_lt_of_variant? {d content : Document α} {name : String}
    (h : d.variant? = some (name, some content)) : sizeOf content < sizeOf d := by
  unfold variant? at h
  split at h
  · cases h
  · cases h; simp; omega
  · cases h

/-! ### Numbers and lists -/

/-- A natural number below a bound, from a whole number. -/
def natBelow? (bound : Nat) : Document α → Option Nat
  | .integer n => if 0 ≤ n ∧ n < bound then some n.toNat else none
  | _ => none

/-- A count, kept as a whole number. -/
def ofCount (n : Nat) : Document α := .integer n

/-- A count, from a whole number of at most 64 bits. -/
def count? (d : Document α) : Option Nat := d.natBelow? UInt64.size

def bool? : Document α → Option Bool
  | .bool b => some b
  | _ => none

/-- A list whose items are read one by one. -/
def listOf? {β : Type} (read : Document α → Option β) : Document α → Option (List β)
  | .list items => items.mapM read
  | _ => none

variable [Scalar α]

/-- A scalar. One that is not finite has no form of its own and is lost. -/
def ofScalar (x : α) : Document α := if Scalar.isFinite x then .number x else .null

/-- A finite scalar, from any number. -/
def scalar? : Document α → Option α
  | .number x => if Scalar.isFinite x then some x else none
  | .integer n => if Scalar.isFinite (n : α) then some (n : α) else none
  | _ => none

end Document

/-- An amplitude is kept as the list of its two parts. -/
def Amplitude.toDocument {α : Type} [Scalar α] (a : Amplitude α) : Document α :=
  .list [.ofScalar a.re, .ofScalar a.im]

def Amplitude.ofDocument? {α : Type} [Scalar α] : Document α → Option (Amplitude α)
  | .list [re, im] => return ⟨← re.scalar?, ← im.scalar?⟩
  | _ => none

end StatePrep
