import CircuitLowering.Bit

/-!
# Kinds of nodes

What a node of the circuit is, with the content that writing it needs, and the questions the
writers ask about a kind: whether it is a constant, part of the circuit's boundary, left to the
arithmetic path, or a primitive.

The kinds are those of the data model (specification, section 3).
-/

namespace CircuitLowering

/-- The clock edge on which a register takes its input. -/
inductive ClockEdge where
  | rising
  | falling
deriving DecidableEq, Repr, Inhabited

namespace ClockEdge

/-- The latch type in BLIF. -/
def keyword : ClockEdge → String
  | rising => "re"
  | falling => "fe"

def name : ClockEdge → String
  | rising => "rising"
  | falling => "falling"

end ClockEdge

/-- The value a register starts with. -/
inductive InitValue where
  | zero
  | one
  | unknown
deriving DecidableEq, Repr, Inhabited

namespace InitValue

/-- The latch initial value in BLIF. -/
def code : InitValue → Nat
  | zero => 0
  | one => 1
  | unknown => 3

def bit? : InitValue → Option Bit
  | zero => some .zero
  | one => some .one
  | unknown => none

def name : InitValue → String
  | zero => "zero"
  | one => "one"
  | unknown => "unknown"

end InitValue

def adderModel : String := "adder"

def multiplyModel : String := "multiply"

/-- Whether a model belongs to the arithmetic path, which writes its instances and its declaration
by itself. -/
def isArithmeticModel (model : String) : Bool := model == adderModel || model == multiplyModel

/-- What a node is. -/
inductive NodeKind where
  /-- An input of the circuit: one output pin that drives the input's net. -/
  | input
  /-- An output of the circuit: one input pin that reads the output's net. -/
  | output
  /-- The driver of the net that is always zero. -/
  | ground
  /-- The driver of the net that is always one. -/
  | power
  /-- The driver of the net that is left open. -/
  | pad
  /-- A lookup table; bit `i` of `mask` is the output for input combination `i`. -/
  | lut (width : Nat) (mask : List Bit)
  /-- A sum of `depth` products over `width` inputs, each literal written as a pair of bits. -/
  | sop (width depth : Nat) (table : List Bit)
  | hardBlock (model : String)
  /-- A coarse cell that is handed on as it is. -/
  | skipBlock (model : String)
  | reduceOr
  | reduceAnd
  /-- A register of one bit with inputs data and clock, in this order. -/
  | register (edge : ClockEdge) (init : InitValue)
  | adder
  | multiplier
deriving DecidableEq, Repr

namespace NodeKind

/-- The constant that nodes of a constant kind drive. -/
def constant? : NodeKind → Option Bit
  | ground => some .zero
  | power => some .one
  | pad => some .unknown
  | _ => none

def isConstant (k : NodeKind) : Bool := k.constant?.isSome

def isBoundary : NodeKind → Bool
  | input | output => true
  | _ => false

/-- Whether nodes of the kind are left to the arithmetic path. -/
def isArithmetic : NodeKind → Bool
  | adder | multiplier => true
  | hardBlock model => isArithmeticModel model
  | _ => false

/-- Whether nodes of the kind are written as primitives. -/
def isPrimitive (k : NodeKind) : Bool := !k.isConstant && !k.isBoundary && !k.isArithmetic

def reductionType? : NodeKind → Option String
  | reduceOr => some "$reduce_or"
  | reduceAnd => some "$reduce_and"
  | _ => none

/-- The model or cell type that the node names. -/
def model? : NodeKind → Option String
  | hardBlock model | skipBlock model => some model
  | _ => none

/-- The type of the node's cell in a design. -/
def cellType? : NodeKind → Option String
  | lut .. => some "$lut"
  | sop .. => some "$sop"
  | register .. => some "$dff"
  | k@reduceOr | k@reduceAnd => k.reductionType?
  | hardBlock model | skipBlock model => some model
  | _ => none

def tag : NodeKind → String
  | input => "input"
  | output => "output"
  | ground => "gnd"
  | power => "vcc"
  | pad => "pad"
  | lut .. => "lut"
  | sop .. => "sop"
  | hardBlock _ => "hard_block"
  | skipBlock _ => "skip_block"
  | reduceOr => "reduce_or"
  | reduceAnd => "reduce_and"
  | register .. => "register"
  | adder => "adder"
  | multiplier => "multiplier"

/-- The kind as it is shown to a reader: the tag, and the model in parentheses. -/
def display (k : NodeKind) : String :=
  match k.model? with
  | some model => k.tag ++ "(" ++ model ++ ")"
  | none => k.tag

end NodeKind

end CircuitLowering
