import CircuitLowering.Ordered

/-!
# The shapes of documents

A type says once how its values stand in a document: which fields a record has, in which order, what
a field is when it is left out, and how the cases of a type are told apart. A codec writes values by
their shape and reads them by it.
-/

namespace CircuitLowering.Json

mutual

/-- How the values of a type stand in a document. -/
inductive Shape : Type → Type 1 where
  | text : Shape String
  | bool : Shape Bool
  | uint64 : Shape UInt64
  | uint16 : Shape UInt16
  | int32 : Shape Int32
  /-- A value, or `null`. -/
  | optional {α : Type} (inner : Shape α) : Shape (Option α)
  | list {α : Type} (item : Shape α) : Shape (List α)
  /-- An object of any names. -/
  | table {α : Type} (value : Shape α) : Shape (Ordered α)
  /-- A text that names a value. -/
  | name {α : Type} (names : List (String × α)) (nameOf : α → String)
      (lookup_nameOf : ∀ a, names.lookup (nameOf a) = some a) : Shape α
  /-- An object with the parts of a value in its fields. -/
  | record {α β : Type} (fields : Fields β) (parts : α → β) (make : β → α)
      (make_parts : ∀ a, make (parts a) = a) : Shape α
  /-- An object whose one field is named for the case of a value. -/
  | variant {α β : Type} (cases : Variants β) (parts : α → β) (make : β → α)
      (make_parts : ∀ a, make (parts a) = a) : Shape α
  /-- An object with the case of a value in the field `tag` and the parts of the case in its other
  fields. It is read as a whole before it is looked into, and may nest `limit` deep. -/
  | tagged {α β : Type} (tag : String) (limit : Nat) (cases : Cases β) (parts : α → β)
      (make : β → α) (make_parts : ∀ a, make (parts a) = a) : Shape α

/-- The fields of a record. -/
inductive Fields : Type → Type 1 where
  | done : Fields Unit
  /-- A field, with its value where it is left out if it may be. -/
  | field {α β : Type} (name : String) (shape : Shape α) (default? : Option α) (rest : Fields β) :
      Fields (α × β)

/-- Cases with one value each. -/
inductive Variants : Type → Type 1 where
  | done : Variants Empty
  | case {α β : Type} (name : String) (content : Shape α) (rest : Variants β) : Variants (α ⊕ β)

/-- Cases with any number of fields. -/
inductive Cases : Type → Type 1 where
  | done : Cases Empty
  | empty {β : Type} (name : String) (rest : Cases β) : Cases (Unit ⊕ β)
  | case {α β : Type} (name : String) (fields : Fields α) (rest : Cases β) : Cases (α ⊕ β)

end

/-- How deep a document may nest. -/
def depthLimit : Nat := 127

def Fields.names {α : Type} : Fields α → List String
  | .done => []
  | .field name _ _ rest => name :: rest.names

/-- What a field without a default is where it is left out: an optional value is none. -/
def Shape.absent? {α : Type} : Shape α → Option α
  | .optional _ => some none
  | _ => none

end CircuitLowering.Json
