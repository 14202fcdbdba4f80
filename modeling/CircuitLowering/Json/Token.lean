import CircuitLowering.Json.Basic

/-!
# The lexical level of JSON

A JSON text is a list of bytes. A small machine, `Lexer`, takes them one by one and cuts the text
into tokens; white space separates tokens and is otherwise dropped.
-/

namespace CircuitLowering.Json

/-- The smallest parts of a JSON text that mean something. -/
inductive Token where
  | arrayOpen
  | arrayClose
  | objectOpen
  | objectClose
  | comma
  | colon
  | null
  | bool (value : Bool)
  | number (value : Number)
  /-- A quoted text; `none` when it denotes no text. -/
  | string (text : Option String)
deriving DecidableEq, Repr

namespace Token

/-! ### Quoted texts -/

/-- A part of a quoted text: a byte of UTF-8 or a UTF-16 unit from an escape. -/
inductive Piece where
  | byte (b : UInt8)
  | unit (u : Nat)
deriving DecidableEq, Repr

/-- The value of a hexadecimal digit in either case. -/
def hexValue? (b : UInt8) : Option Nat :=
  if 0x30 ≤ b ∧ b ≤ 0x39 then some (b.toNat - 0x30)
  else if 0x61 ≤ b ∧ b ≤ 0x66 then some (b.toNat - 0x61 + 10)
  else if 0x41 ≤ b ∧ b ≤ 0x46 then some (b.toNat - 0x41 + 10)
  else none

def hexUnit? (a b c d : UInt8) : Option Nat := do
  return 4096 * (← hexValue? a) + 256 * (← hexValue? b) + 16 * (← hexValue? c) + (← hexValue? d)

/-- The character that a letter after a backslash stands for. -/
def shortEscape? (b : UInt8) : Option UInt8 :=
  if b = 0x22 ∨ b = 0x5c ∨ b = 0x2f then some b
  else if b = 0x62 then some 0x08
  else if b = 0x66 then some 0x0c
  else if b = 0x6e then some 0x0a
  else if b = 0x72 then some 0x0d
  else if b = 0x74 then some 0x09
  else none

/-- Resolves the escapes between two quotes; `done` holds the pieces so far, last piece first.
Fails at an escape that is not one. -/
def pieces? (done : List Piece) : List UInt8 → Option (List Piece)
  | [] => some done.reverse
  | b :: rest =>
    if b = 0x5c then
      match rest with
      | [] => none
      | e :: rest =>
        if e = 0x75 then
          match rest with
          | h₁ :: h₂ :: h₃ :: h₄ :: rest =>
            match hexUnit? h₁ h₂ h₃ h₄ with
            | some u => pieces? (.unit u :: done) rest
            | none => none
          | _ => none
        else
          match shortEscape? e with
          | some c => pieces? (.byte c :: done) rest
          | none => none
    else pieces? (.byte b :: done) rest

/-- The UTF-8 bytes of a code point, in reverse. -/
def reversedBytes (code : Nat) : List UInt8 := (String.utf8EncodeChar (Char.ofNat code)).reverse

/-- Puts the pieces together as UTF-8: a high and a low surrogate make one code point, and a
surrogate alone makes none. `done` holds the bytes so far, last byte first. -/
def bytes? (done : List UInt8) : List Piece → Option (List UInt8)
  | [] => some done.reverse
  | .byte b :: rest => bytes? (b :: done) rest
  | .unit u :: rest =>
    if u < 0xd800 ∨ 0xe000 ≤ u then bytes? (reversedBytes u ++ done) rest
    else if 0xdc00 ≤ u then none
    else
      match rest with
      | .unit v :: rest =>
        if 0xdc00 ≤ v ∧ v < 0xe000 then
          bytes? (reversedBytes (0x10000 + (u - 0xd800) * 1024 + (v - 0xdc00)) ++ done) rest
        else none
      | _ => none

def ofQuoted? (body : List UInt8) : Option Token :=
  (pieces? [] body).map fun pieces =>
    .string ((bytes? [] pieces).bind fun bytes => String.fromUTF8? (ByteArray.mk bytes.toArray))

/-! ### Words -/

/-- The token of a word: a literal name or a number. -/
def ofWord? (word : List Char) : Option Token :=
  if word = ['n', 'u', 'l', 'l'] then some .null
  else if word = ['t', 'r', 'u', 'e'] then some (.bool true)
  else if word = ['f', 'a', 'l', 's', 'e'] then some (.bool false)
  else (Number.read? word).map .number

def isWordByte (b : UInt8) : Bool :=
  (0x30 ≤ b && b ≤ 0x39) || (0x61 ≤ b && b ≤ 0x7a) || (0x41 ≤ b && b ≤ 0x5a)
    || b == 0x2b || b == 0x2d || b == 0x2e

def isBlank (b : UInt8) : Bool := b == 0x20 || b == 0x0a || b == 0x09 || b == 0x0d

def ofByte? (b : UInt8) : Option Token :=
  if b = 0x5b then some .arrayOpen
  else if b = 0x5d then some .arrayClose
  else if b = 0x7b then some .objectOpen
  else if b = 0x7d then some .objectClose
  else if b = 0x2c then some .comma
  else if b = 0x3a then some .colon
  else none

end Token

/-! ### The machine -/

/-- What the machine is in the middle of. What it has read of a token is kept last byte first. -/
inductive Lexer.Mode where
  | between
  | word (read : List UInt8)
  | quoted (read : List UInt8)
  /-- Between quotes, right after a backslash. -/
  | escaped (read : List UInt8)

/-- The state of the machine: what it is in and the tokens so far, last token first. -/
structure Lexer where
  mode : Lexer.Mode := .between
  tokens : List Token := []

namespace Lexer

def start? (tokens : List Token) (b : UInt8) : Option Lexer :=
  if Token.isBlank b then some { tokens }
  else if b = 0x22 then some { mode := .quoted [], tokens }
  else if Token.isWordByte b then some { mode := .word [b], tokens }
  else (Token.ofByte? b).map fun token => { tokens := token :: tokens }

def closeWord? (read : List UInt8) (tokens : List Token) : Option (List Token) :=
  (Token.ofWord? (read.reverse.map fun b => Char.ofNat b.toNat)).map (· :: tokens)

/-- Takes one byte. A control character between quotes is refused. -/
def step? (s : Lexer) (b : UInt8) : Option Lexer :=
  match s.mode with
  | .between => start? s.tokens b
  | .word read =>
    if Token.isWordByte b then some { s with mode := .word (b :: read) }
    else (closeWord? read s.tokens).bind fun tokens => start? tokens b
  | .quoted read =>
    if b = 0x22 then
      (Token.ofQuoted? read.reverse).map fun token => { tokens := token :: s.tokens }
    else if b = 0x5c then some { s with mode := .escaped (b :: read) }
    else if b < 0x20 then none
    else some { s with mode := .quoted (b :: read) }
  | .escaped read => some { s with mode := .quoted (b :: read) }

/-- Ends the text: the tokens, unless the text ends between quotes. -/
def finish? (s : Lexer) : Option (List Token) :=
  match s.mode with
  | .between => some s.tokens.reverse
  | .word read => (closeWord? read s.tokens).map List.reverse
  | .quoted _ | .escaped _ => none

def run? (s : Lexer) : List UInt8 → Option (List Token)
  | [] => s.finish?
  | b :: rest =>
    match s.step? b with
    | some s => s.run? rest
    | none => none

end Lexer

def tokens? (bytes : List UInt8) : Option (List Token) := Lexer.run? {} bytes

end CircuitLowering.Json
