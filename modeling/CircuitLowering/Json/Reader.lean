import CircuitLowering.Json.Token

/-!
# Reading JSON

The tokens of a JSON text are put together into a value by a machine with a stack: one token is
one step, and the stack holds the arrays and objects that are still open. Nesting is unbounded
here; the readers of typed values bound what they look at.
-/

namespace CircuitLowering.Json

/-- An array or object that is still open. What it holds so far is kept last item first. -/
inductive Frame where
  | array (items : List Json)
  /-- An object in which the value of `name` is due or just complete. -/
  | object (fields : List (Option String × Json)) (name : Option String)

/-- What the machine waits for. -/
inductive Reader where
  /-- A value, or the closing bracket when `first`. -/
  | needValue (first : Bool) (stack : List Frame)
  /-- The name of a field, or the closing brace when `first`. -/
  | needName (first : Bool) (fields : List (Option String × Json)) (stack : List Frame)
  /-- The colon after a name. -/
  | needColon (fields : List (Option String × Json)) (name : Option String) (stack : List Frame)
  /-- What follows a complete value. -/
  | complete (value : Json) (stack : List Frame)

namespace Reader

def beginValue? (first : Bool) (stack : List Frame) : Token → Option Reader
  | .null => some (.complete .null stack)
  | .bool b => some (.complete (.bool b) stack)
  | .number n => some (.complete (.number n) stack)
  | .string t => some (.complete (.string t) stack)
  | .arrayOpen => some (.needValue true (.array [] :: stack))
  | .objectOpen => some (.needName true [] stack)
  | .arrayClose =>
    match first, stack with
    | true, .array items :: stack => some (.complete (.array items.reverse) stack)
    | _, _ => none
  | .objectClose | .comma | .colon => none

def continue? (value : Json) : List Frame → Token → Option Reader
  | .array items :: stack, .comma => some (.needValue false (.array (value :: items) :: stack))
  | .array items :: stack, .arrayClose =>
    some (.complete (.array (value :: items).reverse) stack)
  | .object fields name :: stack, .comma => some (.needName false ((name, value) :: fields) stack)
  | .object fields name :: stack, .objectClose =>
    some (.complete (.object ((name, value) :: fields).reverse) stack)
  | _, _ => none

def step? : Reader → Token → Option Reader
  | .needValue first stack, token => beginValue? first stack token
  | .needName _ fields stack, .string name => some (.needColon fields name stack)
  | .needName true fields stack, .objectClose => some (.complete (.object fields.reverse) stack)
  | .needColon fields name stack, .colon => some (.needValue false (.object fields name :: stack))
  | .complete value stack, token => continue? value stack token
  | _, _ => none

/-- Takes the tokens one after the other; at their end one value must be complete. -/
def run? : Reader → List Token → Option Json
  | .complete value [], [] => some value
  | _, [] => none
  | s, token :: rest =>
    match s.step? token with
    | some s => s.run? rest
    | none => none

end Reader

/-- Reads a JSON text: one value with nothing but white space around it. -/
def parseBytes? (bytes : List UInt8) : Option Json :=
  (tokens? bytes).bind (Reader.needValue false []).run?

def parse? (s : String) : Option Json := parseBytes? s.toUTF8.toList

end CircuitLowering.Json
