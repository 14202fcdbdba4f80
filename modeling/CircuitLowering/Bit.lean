/-!
# Four-state bits and bit strings

A bit is `0`, `1`, unknown or floating. Bit vectors are lists of bits with the least significant
bit first; their written form, the bit string, has the most significant bit first.
-/

namespace CircuitLowering

/-- A bit with the two states beyond zero and one that a circuit can hold. -/
inductive Bit where
  | zero
  | one
  /-- Unknown, or free to be chosen. -/
  | unknown
  /-- High impedance. -/
  | floating
deriving DecidableEq, Repr, Inhabited

namespace Bit

def toChar : Bit → Char
  | zero => '0'
  | one => '1'
  | unknown => 'x'
  | floating => 'z'

/-- Reads the letter of a bit. Both cases are read, and `-` is another letter for unknown. -/
def ofChar? : Char → Option Bit
  | '0' => some zero
  | '1' => some one
  | 'x' | 'X' | '-' => some unknown
  | 'z' | 'Z' => some floating
  | _ => none

def ofBool (b : Bool) : Bit := if b then one else zero

/-- Whether the bit is zero or one. -/
def isDefined : Bit → Bool
  | zero | one => true
  | unknown | floating => false

@[simp] theorem ofChar?_toChar (b : Bit) : ofChar? b.toChar = some b := by
  cases b <;> rfl

end Bit

/-! ### Bit vectors, least significant bit first -/

namespace Bits

/-- Reads a bit string, or fails at a letter that is no bit. -/
def parse? (text : String) : Option (List Bit) := text.toList.reverse.mapM Bit.ofChar?

def render (bits : List Bit) : String := String.ofList (bits.reverse.map Bit.toChar)

/-- Cuts `bits` to `width` bits or extends them with zeros. -/
def resize (width : Nat) (bits : List Bit) : List Bit :=
  bits.take width ++ List.replicate (width - bits.length) .zero

def ofInt (width : Nat) (value : Int) : List Bit :=
  (List.range width).map fun i => .ofBool ((BitVec.ofInt width value).getLsbD i)

/-- The sum of the powers of two at which `bits` is one. -/
def toNat : List Bit → Nat
  | [] => 0
  | b :: rest => (if b = .one then 1 else 0) + 2 * toNat rest

/-- The number that a vector of at most 32 zeros and ones stands for: in two's complement at
exactly 32 bits, without a sign below. -/
def toInt? (bits : List Bit) : Option Int :=
  if bits.length ≤ 32 ∧ bits.all Bit.isDefined then
    if bits.length = 32 ∧ bits.getLast? = some .one then some (toNat bits - 4294967296)
    else some (toNat bits)
  else none

@[simp] theorem length_ofInt (width : Nat) (value : Int) : (ofInt width value).length = width := by
  simp [ofInt]

@[simp] theorem length_resize (width : Nat) (bits : List Bit) :
    (resize width bits).length = width := by
  simp [resize]; omega

end Bits

end CircuitLowering
