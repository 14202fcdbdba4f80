/-!
# Numbers as they are written in JSON

A number keeps the form in which it was written: a sign, whole digits, fraction digits and an
exponent. It is an integer only when it has neither fraction nor exponent. `inRange` says which
numbers a double can hold without becoming infinite.
-/

namespace CircuitLowering.Json

/-- A number in its written form. -/
structure Number where
  negative : Bool := false
  /-- The digits before the point. -/
  whole : Nat
  /-- The digits after the point, first digit first. -/
  fraction : List Nat := []
  exponent : Option Int := none
deriving DecidableEq, Repr

namespace Number

def ofNat (n : Nat) : Number := { whole := n }

def ofInt (i : Int) : Number := { negative := i < 0, whole := i.natAbs }

/-- The integer that the number is. A negative zero and everything with a fraction or an exponent
is no integer. -/
def toInt? (n : Number) : Option Int :=
  if n.fraction = [] ∧ n.exponent = none then
    if n.negative then if n.whole = 0 then none else some (-n.whole) else some n.whole
  else none

def render (n : Number) : String :=
  (if n.negative then "-" else "") ++ toString n.whole
    ++ (if n.fraction = [] then "" else "." ++ String.join (n.fraction.map toString))
    ++ match n.exponent with
      | none => ""
      | some e => "e" ++ toString e

/-! ### Reading -/

/-- The digits at the front and what follows them. -/
def spanDigits (cs : List Char) : List Char × List Char :=
  (cs.takeWhile Char.isDigit, cs.dropWhile Char.isDigit)

def digitValues (cs : List Char) : List Nat := cs.map fun c => c.toNat - 48

/-- Reads an exponent up to the end of the word; the marker is already read. -/
def readExponent? (cs : List Char) : Option Int :=
  let (negative, digits) := match cs with
    | '+' :: rest => (false, rest)
    | '-' :: rest => (true, rest)
    | _ => (false, cs)
  if digits ≠ [] ∧ digits.all Char.isDigit then
    let value := Nat.ofDigitChars 10 digits 0
    some (if negative then -value else value)
  else none

/-- Reads what may follow the fraction: the end or an exponent. -/
def readScale? (number : Number) : List Char → Option Number
  | [] => some number
  | c :: rest =>
    if c = 'e' ∨ c = 'E' then
      (readExponent? rest).map fun e => { number with exponent := some e }
    else none

/-- Reads a number without sign: whole digits with no needless zero in front, then at least one
digit after a point if there is one, then an exponent if there is one. -/
def readUnsigned? (cs : List Char) : Option Number :=
  match spanDigits cs with
  | ([], _) => none
  | ('0' :: _ :: _, _) => none
  | (whole, rest) =>
    let number : Number := { whole := Nat.ofDigitChars 10 whole 0 }
    match rest with
    | '.' :: rest =>
      match spanDigits rest with
      | ([], _) => none
      | (fraction, rest) => readScale? { number with fraction := digitValues fraction } rest
    | rest => readScale? number rest

def read? : List Char → Option Number
  | '-' :: rest => (readUnsigned? rest).map fun number => { number with negative := true }
  | cs => readUnsigned? cs

/-! ### Range -/

/-- Takes digits into a significand of 64 bits for as long as they fit; the answer is the
significand and the number of digits taken. -/
def gather (significand taken : Nat) : List Nat → Nat × Nat
  | [] => (significand, taken)
  | digit :: rest =>
    if significand * 10 + digit < UInt64.size then
      gather (significand * 10 + digit) (taken + 1) rest
    else (significand, taken)

/-- The nearest number with 53 significant bits; a tie goes to the even one. -/
def roundTo53 (n : Nat) : Nat :=
  let extra := n.log2 + 1 - 53
  let kept := n >>> extra
  let dropped := n - kept <<< extra
  let half := Nat.pow 2 extra / 2
  if extra ≠ 0 ∧ (half < dropped ∨ half = dropped ∧ kept % 2 = 1) then (kept + 1) <<< extra
  else kept <<< extra

/-- Products from here on round to infinity. -/
def overflowBound : Nat := Nat.pow 2 1024 - Nat.pow 2 970

/-- Whether a double can hold the number. The significand is gathered in 64 bits: further whole
digits only scale it, and fraction digits from the first that does not fit are without effect. -/
def inRange (n : Number) : Bool :=
  let whole := digitValues (Nat.toDigits 10 n.whole)
  let (significand, wholeTaken) := gather 0 0 whole
  let (significand, fractionTaken) := gather significand 0 n.fraction
  let scale : Int := (whole.length - wholeTaken : Nat) - fractionTaken + n.exponent.getD 0
  if significand = 0 ∨ scale < 0 then true
  else if 308 < scale then false
  else roundTo53 significand * roundTo53 (Nat.pow 10 scale.toNat) < overflowBound

end Number

end CircuitLowering.Json
