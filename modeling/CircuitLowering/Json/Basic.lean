import CircuitLowering.Json.Number

/-!
# JSON values

A JSON value as it was written: objects keep the order and the repetitions of their names, and a
quoted text that denotes no text (a lone surrogate, bytes that are not UTF-8) is kept as such,
since it is harmless where nobody reads it.
-/

namespace CircuitLowering

/-- A JSON value. -/
inductive Json where
  | null
  | bool (value : Bool)
  | number (value : Json.Number)
  /-- A quoted text; `none` when it is well formed but denotes no text. -/
  | string (text : Option String)
  | array (items : List Json)
  | object (fields : List (Option String × Json))
deriving Inhabited

namespace Json

def text (s : String) : Json := string (some s)

def nat (n : Nat) : Json := number (.ofNat n)

def int (i : Int) : Json := number (.ofInt i)

/-- An object with the given fields in the given order. -/
def record (fields : List (String × Json)) : Json :=
  object (fields.map fun field => (some field.1, field.2))

/-- The value, or `null` when there is none. -/
def optional {α : Type} (f : α → Json) : Option α → Json
  | none => null
  | some a => f a

end Json

end CircuitLowering
