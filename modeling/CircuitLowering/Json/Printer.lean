import CircuitLowering.Json.Basic

/-!
# Writing JSON

Two layouts: `compact`, without any white space, and `pretty`, with one item or field a line and
two spaces of indentation a level. Both write the same tokens.
-/

namespace CircuitLowering.Json

/-! ### Texts -/

/-- The digit that stands for `n` below sixteen, in lower case. -/
def hexDigit (n : Nat) : Char := Nat.digitChar n

/-- The written form of one character. Quotes, backslashes and control characters are escaped,
those with a letter of their own by that letter; all else stands for itself. -/
def escapeChar (c : Char) : String :=
  if c = '"' then "\\\""
  else if c = '\\' then "\\\\"
  else if c = '\x08' then "\\b"
  else if c = '\x0c' then "\\f"
  else if c = '\n' then "\\n"
  else if c = '\r' then "\\r"
  else if c = '\t' then "\\t"
  else if c < ' ' then
    "\\u00" ++ String.ofList [hexDigit (c.toNat / 16), hexDigit (c.toNat % 16)]
  else c.toString

def quote (s : String) : String :=
  s.toList.foldl (fun written c => written ++ escapeChar c) "\"" ++ "\""

/-! ### Without white space -/

mutual

def compact : Json → String
  | null => "null"
  | bool b => if b then "true" else "false"
  | number n => n.render
  | string t => quote (t.getD "")
  | array items => "[" ++ String.intercalate "," (compactItems items) ++ "]"
  | object fields => "\x7b" ++ String.intercalate "," (compactFields fields) ++ "\x7d"

/-- The items of an array, one text each. -/
def compactItems : List Json → List String
  | [] => []
  | item :: rest => compact item :: compactItems rest

/-- The fields of an object, one text each. -/
def compactFields : List (Option String × Json) → List String
  | [] => []
  | (name, value) :: rest =>
    (quote (name.getD "") ++ ":" ++ compact value) :: compactFields rest

end

/-! ### One item a line -/

def newline (depth : Nat) : String := "\n" ++ String.ofList (List.replicate (2 * depth) ' ')

/-- The parts of an array or object between its brackets, each on a line of its own at `depth`;
without parts the brackets stand together. -/
def layout (opening closing : String) (depth : Nat) (parts : List String) : String :=
  if parts.isEmpty then opening ++ closing
  else
    opening ++ newline (depth + 1) ++ String.intercalate ("," ++ newline (depth + 1)) parts
      ++ newline depth ++ closing

mutual

/-- The value with one item or field a line, inside `depth` levels of other values. -/
def prettyAt (depth : Nat) : Json → String
  | null => "null"
  | bool b => if b then "true" else "false"
  | number n => n.render
  | string t => quote (t.getD "")
  | array items => layout "[" "]" depth (prettyItems (depth + 1) items)
  | object fields => layout "\x7b" "\x7d" depth (prettyFields (depth + 1) fields)

/-- The items of an array, one text each. -/
def prettyItems (depth : Nat) : List Json → List String
  | [] => []
  | item :: rest => prettyAt depth item :: prettyItems depth rest

/-- The fields of an object, one text each. -/
def prettyFields (depth : Nat) : List (Option String × Json) → List String
  | [] => []
  | (name, value) :: rest =>
    (quote (name.getD "") ++ ": " ++ prettyAt depth value) :: prettyFields depth rest

end

def pretty (value : Json) : String := prettyAt 0 value

end CircuitLowering.Json
