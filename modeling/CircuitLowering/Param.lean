import CircuitLowering.Bit
import CircuitLowering.Text.Escaped

/-!
# Parameter values

The value of a cell parameter or of an attribute: a vector of bits or a text. Values pass from
the circuit to the output unchanged.
-/

namespace CircuitLowering

/-- The value of a parameter. -/
inductive Param where
  /-- A bit vector, least significant bit first. -/
  | bits (bits : List Bit)
  | text (text : String)
deriving DecidableEq, Repr

namespace Param

def ofInt (value : Int) : Param := bits (Bits.ofInt 32 value)

/-- A count as 32 bits. Counts above the largest 32-bit integer are written as that integer. -/
def ofCount (count : Nat) : Param := ofInt (min count 2147483647 : Nat)

def ofBool (b : Bool) : Param := bits [.ofBool b]

/-- The number that a bit vector stands for; see `Bits.toInt?`. -/
def toInt? : Param → Option Int
  | bits b => Bits.toInt? b
  | text _ => none

def bitString? : Param → Option String
  | bits b => some (Bits.render b)
  | text _ => none

/-- The value as it is shown to a reader: a bit string, or the text with everything in it made
visible. -/
def display : Param → String
  | bits b => Bits.render b
  | text t => Text.Escaped.encode t

end Param

end CircuitLowering
