import CircuitLowering.Bit
import CircuitLowering.Failure
import CircuitLowering.Netlist.Kind
import CircuitLowering.Ordered
import CircuitLowering.Param

/-!
# Circuit descriptions

A circuit as its author writes it down: models, inputs, outputs and nodes, with signals given by
name. Bit strings are still text here. `KindDeclaration.toKind` and `ParamDeclaration.toParam`
read them.

Descriptions are in section 11 of the specification, item 7.
-/

namespace CircuitLowering

structure PortDeclaration where
  name : String
  size : UInt64
deriving DecidableEq, Repr

structure ModelDeclaration where
  name : String
  inputs : List PortDeclaration := []
  outputs : List PortDeclaration := []
  /-- Whether the model counts as instantiated even without an instance. -/
  used : Bool := false
deriving DecidableEq, Repr

/-- The pins of one port of a node. A pin without net is left open if it is an input; if it is an
output it drives a net of its own. -/
structure PortBinding where
  mapping : String
  /-- The size, where it is stated; it must be the number of nets. -/
  size : Option UInt64 := none
  /-- The net of each pin, by name. -/
  nets : List (Option String)
deriving DecidableEq, Repr

/-- The kind of a declared node. -/
inductive KindDeclaration where
  | lut (width : UInt64) (mask : String)
  | sop (width depth : UInt64) (table : String)
  | hardBlock (model : String)
  | skipBlock (model : String)
  | reduceOr
  | reduceAnd
  | register (edge : ClockEdge) (init : InitValue)
  | adder
  | multiplier
deriving DecidableEq, Repr

inductive ParamDeclaration where
  | bits (text : String)
  | int (value : Int32)
  | text (text : String)
deriving DecidableEq

structure NodeDeclaration where
  name : String
  kind : KindDeclaration
  inputs : List PortBinding := []
  outputs : List PortBinding := []
  params : Ordered ParamDeclaration := .empty

/-- A circuit as it is written down. -/
structure CircuitDescription where
  /-- The name of the top module, where one is given. -/
  top : Option String := none
  models : List ModelDeclaration := []
  inputs : List String := []
  outputs : List String := []
  nodes : List NodeDeclaration := []

/-- Reads a bit string, or names it as malformed. -/
def readBits (text : String) : Except CircuitError (List Bit) :=
  match Bits.parse? text with
  | some bits => .ok bits
  | none => .error (.malformedBits text)

def ParamDeclaration.toParam : ParamDeclaration → Except CircuitError Param
  | bits letters => (readBits letters).map .bits
  | int value => .ok (.ofInt value.toInt)
  | text value => .ok (.text value)

def KindDeclaration.toKind : KindDeclaration → Except CircuitError NodeKind
  | lut width mask => (readBits mask).map (.lut width.toNat)
  | sop width depth table => (readBits table).map (.sop width.toNat depth.toNat)
  | hardBlock model => .ok (.hardBlock model)
  | skipBlock model => .ok (.skipBlock model)
  | reduceOr => .ok .reduceOr
  | reduceAnd => .ok .reduceAnd
  | register edge init => .ok (.register edge init)
  | adder => .ok .adder
  | multiplier => .ok .multiplier

end CircuitLowering
