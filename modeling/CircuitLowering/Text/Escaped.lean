import CircuitLowering.Text.Printable

/-!
# Text as it is shown to a reader

A text between double quotes in which every character can be seen: quotes and backslashes have a
backslash before them, NUL, tab, line feed and carriage return have their letters, and any other
character without a glyph of its own, or that would attach to the character before it, is given by
its code point.
-/

namespace CircuitLowering.Text.Escaped

def codePoint (c : Char) : String :=
  "\\u\x7b" ++ String.ofList (Nat.toDigits 16 c.toNat) ++ "\x7d"

def encodeChar (c : Char) : String :=
  if c = '"' then "\\\""
  else if c = '\\' then "\\\\"
  else if c = '\x00' then "\\0"
  else if c = '\t' then "\\t"
  else if c = '\n' then "\\n"
  else if c = '\r' then "\\r"
  else if isUnprintable c || isGraphemeExtend c then codePoint c
  else c.toString

/-- The shown form of a text, quotes included. -/
def encode (text : String) : String :=
  "\"" ++ String.join (text.toList.map encodeChar) ++ "\""

end CircuitLowering.Text.Escaped
