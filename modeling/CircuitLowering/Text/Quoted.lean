/-!
# Quoted text

A text between double quotes in printable ASCII. A quote and a backslash are written after a
backslash; a byte of the text's UTF-8 form that is not printable ASCII is written as a backslash
and three octal digits.

The escapes are in section 11 of the specification, item 3.
-/

namespace CircuitLowering.Text.Quoted

def octalDigit (n : Nat) : Char := Char.ofNat (48 + n)

def encodeByte (b : UInt8) : List Char :=
  if b = 0x22 then ['\\', '"']
  else if b = 0x5c then ['\\', '\\']
  else if 0x20 ≤ b ∧ b ≤ 0x7e then [Char.ofNat b.toNat]
  else
    ['\\', octalDigit (b.toNat / 64), octalDigit (b.toNat / 8 % 8), octalDigit (b.toNat % 8)]

/-- The written form of a text, quotes included. -/
def encode (text : String) : String :=
  String.ofList ('"' :: text.toUTF8.toList.flatMap encodeByte ++ ['"'])

def digitValue? (c : Char) : Option Nat :=
  if '0' ≤ c ∧ c ≤ '7' then some (c.toNat - 48) else none

/-- Reads the bytes of a written form up to its closing quote, which must end it. -/
def decodeBytes? : List Char → Option (List UInt8)
  | ['"'] => some []
  | '\\' :: '"' :: rest => (decodeBytes? rest).map (0x22 :: ·)
  | '\\' :: '\\' :: rest => (decodeBytes? rest).map (0x5c :: ·)
  | '\\' :: a :: b :: c :: rest => do
    let byte := 64 * (← digitValue? a) + 8 * (← digitValue? b) + (← digitValue? c)
    if byte < 256 then (decodeBytes? rest).map (UInt8.ofNat byte :: ·) else none
  | c :: rest =>
    if c = '"' ∨ c = '\\' ∨ c < ' ' ∨ '~' < c then none
    else (decodeBytes? rest).map (UInt8.ofNat c.toNat :: ·)
  | [] => none

/-- Reads a written form: the reverse of `encode`. -/
def decode? (written : String) : Option String := do
  match written.toList with
  | '"' :: rest => String.fromUTF8? (ByteArray.mk (← decodeBytes? rest).toArray)
  | _ => none

end CircuitLowering.Text.Quoted
