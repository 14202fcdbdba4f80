import CircuitLowering.Text.Pattern

/-!
# Names with a subscript

A name `base[index]` denotes one bit of the bus `base`. The base is everything before the last
bracketed group; it is not empty and holds no line break. The index is written in decimal digits,
leading zeros allowed, and is below `2 ^ 64`. Every other name is that of a single bit.

Such names are split as the bus reconstructor asks (specification, section 4.3).
-/

namespace CircuitLowering.Text.Subscript

def join (base : String) (index : Nat) : String := base ++ "[" ++ toString index ++ "]"

/-- One more than the largest index. -/
def indexLimit : Nat := UInt64.size

/-- The pattern `^(.+)\[([0-9]+)\]$`. -/
def pattern : Pattern :=
  [.capture .dot, .one (.only '['), .capture (.between '0' '9'), .one (.only ']')]

/-- Takes a name apart into base and index, if it is that of a bit of a bus. -/
def split? (name : String) : Option (String × Nat) :=
  match pattern.captures? name.toList with
  | some [base, digits] =>
    let index := Nat.ofDigitChars 10 digits 0
    if index < indexLimit then some (String.ofList base, index) else none
  | _ => none

end CircuitLowering.Text.Subscript
