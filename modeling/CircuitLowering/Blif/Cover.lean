import CircuitLowering.Bit
import CircuitLowering.Capacity

/-!
# Covers

The rows of the truth tables in BLIF. A row lists a literal for each input and ends in the output
value one; the table is one where a row matches and zero elsewhere. Rows of lookup tables begin with
the most significant input, rows of sums of products with the first.

This is the truth-table encoder of the specification (section 4.5).
-/

namespace CircuitLowering.Blif

def rowEnd : String := " 1"

/-! ### Lookup tables -/

/-- A number as a shift count, which has 32 bits. -/
def shiftCount? (n : Nat) : Option UInt32 := if n < UInt32.size then some (.ofNat n) else none

/-- A word shifted to the left; no shift takes 64 places. -/
def shiftLeft? (x : UInt64) (count : UInt32) : Option UInt64 :=
  if count < 64 then some (x <<< count.toUInt64) else none

def shiftRight? (x : UInt64) (count : UInt32) : Option UInt64 :=
  if count < 64 then some (x >>> count.toUInt64) else none

/-- How many combinations of values `width` inputs have, or the largest number where a word is too
short for it. -/
def combinations (width : Nat) : UInt64 :=
  ((shiftCount? width).bind (shiftLeft? 1)).getD (.ofNat (UInt64.size - 1))

/-- The digit of place `j` in the binary numeral of `i`. -/
def digit (i : UInt64) (j : Nat) : Char :=
  match (shiftCount? j).bind (shiftRight? i) with
  | some shifted => if shifted &&& 1 = 1 then '1' else '0'
  | none => '0'

/-- The places at which a mask is one, in ascending order. -/
def onePlaces (mask : List Bit) : List UInt64 :=
  mask.zipIdx.filterMap fun (b, i) => if b = .one then some (.ofNat i) else none

/-- The row of combination `i`, most significant digit first. -/
def lutRow (width : Nat) (i : UInt64) : String :=
  String.ofList ((List.range width).reverse.map (digit i)) ++ rowEnd

/-- The places of the rows of a lookup table. Bits of the mask beyond the combinations count for
nothing. -/
def lutPlaces (width : Nat) (mask : List Bit) : List UInt64 :=
  onePlaces (mask.take (combinations width).toNat)

/-- The rows of a lookup table: one for each input combination at which the mask is one. -/
def lutRows (width : Nat) (mask : List Bit) : List String := (lutPlaces width mask).map (lutRow width)

/-! ### Sums of products -/

/-- The literal of a pair of bits: `0` for one-zero, `1` for zero-one, and `-`, which any value
matches, for all other pairs. -/
def literal : Bit → Bit → Char
  | .one, .zero => '0'
  | .zero, .one => '1'
  | _, _ => '-'

/-- The literals of a product over `width` inputs. Bits that are missing at the end are zero. -/
def product : Nat → List Bit → List Char
  | 0, _ => []
  | width + 1, a :: b :: rest => literal a b :: product width rest
  | width + 1, [a] => literal a .zero :: product width []
  | width + 1, [] => literal .zero .zero :: product width []

/-- The rows of a sum of `depth` products, in the order of the products. -/
def sopRows (width : Nat) : Nat → List Bit → List String
  | 0, _ => []
  | depth + 1, table =>
    (String.ofList (product width table) ++ rowEnd) :: sopRows width depth (table.drop (2 * width))

/-! ### Rows that fit

Both tables can ask for more rows, or longer ones, than memory holds. A row takes in its letters at
once, and its end is added to them. -/

/-- Whether a row for `width` inputs fits memory. -/
def rowFits (width : Nat) : Bool :=
  Capacity.fits Capacity.letterBytes (Capacity.textRoom width rowEnd.length)

/-- Whether the rows of a lookup table fit memory. They are found one by one. -/
def lutFits (width : Nat) (mask : List Bit) : Bool :=
  let count := (lutPlaces width mask).length
  Capacity.fits Capacity.textBytes (Capacity.listRoom count) && (count = 0 || rowFits width)

def lutRowsChecked (width : Nat) (mask : List Bit) : Except Fault (List String) :=
  if lutFits width mask then .ok (lutRows width mask) else .error .overflow

/-- Whether the rows of a sum of products fit memory and the places of its table 64 bits. There is
room for all rows before the first is made. -/
def sopFits (width depth : Nat) : Bool :=
  Capacity.fits Capacity.textBytes depth
    && (depth = 0 || (rowFits width && 2 * width * depth ≤ UInt64.size))

def sopRowsChecked (width depth : Nat) (table : List Bit) : Except Fault (List String) :=
  if sopFits width depth then .ok (sopRows width depth table) else .error .overflow

end CircuitLowering.Blif
