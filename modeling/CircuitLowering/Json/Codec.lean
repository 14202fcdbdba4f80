import CircuitLowering.Json.Decode
import CircuitLowering.Json.Printer
import CircuitLowering.Json.Reader
import CircuitLowering.Json.Shape

/-!
# Codecs

What keeps values as JSON texts is a library. A program names the shapes of its values and leaves the
rest to a `Codec`. `Codec.standard` is the codec that programs run with; it writes every field, in the
declared order.
-/

namespace CircuitLowering.Json

/-- A library that writes values as JSON texts and reads them back, by their shapes. -/
structure Codec where
  print : Json → String
  parse? : List UInt8 → Option Json
  write {α : Type} : Shape α → α → Json
  read? {α : Type} : Shape α → Json → Option α

namespace Codec

variable {α : Type}

def parseBytes? (c : Codec) (s : Shape α) (bytes : List UInt8) : Option α :=
  (c.parse? bytes).bind (c.read? s)

def render (c : Codec) (s : Shape α) (a : α) : String := c.print (c.write s a)

end Codec

/-! ### Writing -/

mutual

def Shape.write {α : Type} : Shape α → α → Json
  | .text, s => .text s
  | .bool, b => .bool b
  | .uint64, n => .nat n.toNat
  | .uint16, n => .nat n.toNat
  | .int32, i => .int i.toInt
  | .optional inner, value => Json.optional inner.write value
  | .list item, items => .array (items.map item.write)
  | .table value, entries => .record (entries.map value.write).entries
  | .name _ nameOf _, a => .text (nameOf a)
  | .record fields parts _ _, a => .record (fields.write (parts a))
  | .variant cases parts _ _, a => .record [cases.write (parts a)]
  | .tagged tag _ cases parts _ _, a => .record (cases.write tag (parts a))

def Fields.write {α : Type} : Fields α → α → List (String × Json)
  | .done, _ => []
  | .field name shape _ rest, parts => (name, shape.write parts.1) :: rest.write parts.2

def Variants.write {α : Type} : Variants α → α → String × Json
  | .done, a => nomatch a
  | .case name content rest, a =>
    match a with
    | .inl value => (name, content.write value)
    | .inr other => rest.write other

def Cases.write {α : Type} (tag : String) : Cases α → α → List (String × Json)
  | .done, a => nomatch a
  | .empty name rest, a =>
    match a with
    | .inl _ => [(tag, .text name)]
    | .inr other => rest.write tag other
  | .case name fields rest, a =>
    match a with
    | .inl parts => (tag, .text name) :: fields.write parts
    | .inr other => rest.write tag other

end

/-! ### Reading -/

/-- The tag of an object and its other fields, or the first item of an array and the items after
it. -/
def tagged? (tag : String) : Json → Option (String × Json)
  | array (name :: content) => name.text?.map (·, array content)
  | object fields => do
    let [(_, name)] := fields.filter (·.1 = some tag) | none
    return (← name.text?, object (fields.filter (·.1 ≠ some tag)))
  | _ => none

/-- Whether a value can be the content of a case without fields. -/
def isContent : Json → Bool
  | object _ | array [] => true
  | _ => false

mutual

/-- Reads a value. The value is `kept` where it stands in an object that has been read as a whole. -/
def Shape.read? {α : Type} (kept : Bool) : Shape α → Json → Option α
  | .text, j => j.text?
  | .bool, j => j.bool?
  | .uint64, j => j.uint64?
  | .uint16, j => j.uint16?
  | .int32, j => j.int32?
  | .optional inner, j => nullable? (inner.read? kept) j
  | .list item, j => list? (item.read? kept) j
  | .table value, j => do
    let entries ← (← j.namedFields?).mapM fun field => (value.read? kept field.2).map (field.1, ·)
    return Ordered.ofList entries
  | .name names _ _, j => (if kept then j.keptCaseName? else j.caseName?).bind (List.lookup · names)
  | .record fields _ make _, j => (j.fields? fields.names).bind fun js => (fields.read? kept js).map make
  | .variant cases _ make _, j =>
    j.singleField?.bind fun field => (cases.read? kept field.1 field.2).map make
  | .tagged tag limit cases _ make _, j =>
    if j.isReadable limit then
      (j.tagged? tag).bind fun content => (cases.read? content.1 content.2).map make
    else none

/-- Reads the fields of a record, which are given in the declared order. -/
def Fields.read? {α : Type} (kept : Bool) : Fields α → List (Option Json) → Option α
  | .done, _ => some ()
  | .field _ shape default? rest, js => do
    let value ← match js.head?.join with
      | some j => shape.read? kept j
      | none => default?.or shape.absent?
    return (value, ← rest.read? kept js.tail)

def Variants.read? {α : Type} (kept : Bool) : Variants α → String → Json → Option α
  | .done, _, _ => none
  | .case name content rest, given, j =>
    if given = name then (content.read? kept j).map .inl else (rest.read? kept given j).map .inr

def Cases.read? {α : Type} : Cases α → String → Json → Option α
  | .done, _, _ => none
  | .empty name rest, given, content =>
    if given = name then if content.isContent then some (.inl ()) else none
    else (rest.read? given content).map .inr
  | .case name fields rest, given, content =>
    if given = name then
      (content.fields? fields.names).bind fun js => (fields.read? true js).map .inl
    else (rest.read? given content).map .inr

end

/-! ### The standard codec -/

def Codec.standard : Codec where
  print := compact
  parse? := Json.parseBytes?
  write := Shape.write
  read? := Shape.read? false

end CircuitLowering.Json
