import CircuitLowering.Json.Basic

/-!
# Readers of typed values

The common part of reading records, lists, numbers and names out of a JSON value. A record is
written as an object or as the array of its fields in their declared order. In an object, unknown
fields are passed over, whatever their values are, and a declared field occurs once at most.
-/

namespace CircuitLowering.Json

def text? : Json → Option String
  | string t => t
  | _ => none

def bool? : Json → Option Bool
  | bool b => some b
  | _ => none

def int? : Json → Option Int
  | number n => n.toInt?
  | _ => none

/-- An integer from zero up to but not including `bound`. -/
def natBelow? (bound : Nat) (j : Json) : Option Nat := do
  let i ← j.int?
  if 0 ≤ i ∧ i < bound then some i.toNat else none

def uint64? (j : Json) : Option UInt64 := (j.natBelow? UInt64.size).map UInt64.ofNat

def uint16? (j : Json) : Option UInt16 := (j.natBelow? UInt16.size).map UInt16.ofNat

def int32? (j : Json) : Option Int32 := do
  let i ← j.int?
  if -2147483648 ≤ i ∧ i ≤ 2147483647 then some (Int32.ofInt i) else none

variable {α : Type}

/-- A list, item by item. -/
def list? (item? : Json → Option α) : Json → Option (List α)
  | array items => items.mapM item?
  | _ => none

/-- A value, or `null` for none. -/
def nullable? (value? : Json → Option α) : Json → Option (Option α)
  | null => some none
  | j => (value? j).map some

/-- The fields of an object with their names, which must all denote texts. -/
def namedFields? : Json → Option (List (String × Json))
  | object fields => fields.mapM fun field => field.1.map (·, field.2)
  | _ => none

/-! ### Records -/

/-- What an object holds under a name; fails when the name is repeated. -/
def field? (fields : List (String × Json)) (name : String) : Option (Option Json) :=
  match fields.filter fun field => field.1 = name with
  | [] => some none
  | [field] => some (some field.2)
  | _ => none

/-- The fields of a record that declares `names`, in that order. An array may leave fields out at
its end; an object may leave out any. -/
def fields? (names : List String) : Json → Option (List (Option Json))
  | array items =>
    if items.length ≤ names.length then
      some (items.map some ++ List.replicate (names.length - items.length) none)
    else none
  | j => (namedFields? j).bind fun fields => names.mapM (field? fields)

/-! ### Names and cases -/

/-- The one field of an object that holds exactly one. -/
def singleField? : Json → Option (String × Json)
  | object [(some name, value)] => some (name, value)
  | _ => none

/-- The name of a case without content: a text, or an object whose one field is named for the case
and holds `null`. -/
def caseName? : Json → Option String
  | string t => t
  | object [(some name, null)] => some name
  | _ => none

/-- The name of a case inside an object that has been read as a whole: as elsewhere, but the content
may also be an empty object. -/
def keptCaseName? : Json → Option String
  | object [(some name, object [])] => some name
  | j => j.caseName?

/-! ### Readable values -/

mutual

/-- Whether a value can be read through: its texts denote texts, its numbers are in range and it
nests at most `depth` deep. -/
def isReadable (depth : Nat) : Json → Bool
  | null | bool _ => true
  | number n => n.inRange
  | string t => t.isSome
  | array items =>
    match depth with
    | 0 => false
    | depth + 1 => itemsReadable depth items
  | object fields =>
    match depth with
    | 0 => false
    | depth + 1 => fieldsReadable depth fields

def itemsReadable (depth : Nat) : List Json → Bool
  | [] => true
  | item :: rest => isReadable depth item && itemsReadable depth rest

def fieldsReadable (depth : Nat) : List (Option String × Json) → Bool
  | [] => true
  | (name, value) :: rest => name.isSome && isReadable depth value && fieldsReadable depth rest

end

end CircuitLowering.Json
