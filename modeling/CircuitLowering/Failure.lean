/-!
# Failures

Three kinds of failure are told apart. `CircuitError` is a fault of the circuit description,
`EmitError` one of the circuit that shows while it is written. `Fault` is a broken promise of the
caller: an id that was never given out, an operation outside its domain, a quantity beyond 64 bits.

The errors are those of the specification (sections 7 and 10.3).
-/

namespace CircuitLowering

/-- What can be wrong with a circuit description. -/
inductive CircuitError where
  /-- The text is not JSON, or not that of a circuit. -/
  | malformedJson
  /-- A bit string holds something other than bits. -/
  | malformedBits (text : String)
  | portSizeMismatch (node port : String) (size pins : Nat)
  | duplicateNode (name : String)
  /-- An output is to drive one of the constant nets. -/
  | drivesConstant (node net : String)
deriving DecidableEq, Repr

namespace CircuitError

def message : CircuitError → String
  | malformedJson => "malformed JSON"
  | malformedBits text => "malformed bit string `" ++ text ++ "`"
  | portSizeMismatch node port size pins =>
    "node `" ++ node ++ "`: port `" ++ port ++ "` declares " ++ toString size
      ++ " pins but lists " ++ toString pins
  | duplicateNode name => "duplicate node name `" ++ name ++ "`"
  | drivesConstant node net =>
    "node `" ++ node ++ "`: output cannot drive constant net `" ++ net ++ "`"

end CircuitError

/-- What can be wrong with a circuit that is being written. -/
inductive EmitError where
  /-- A net that is read has several drivers. -/
  | multipleDrivers (node pin : String) (count : Nat)
  /-- Two modules of one name. -/
  | duplicateModule (name : String)
  /-- The pins of a node do not fit its kind. -/
  | malformedNode (node reason : String)
  /-- A constant net has lost its driver. -/
  | missingDriver (net : String)
deriving DecidableEq, Repr

namespace EmitError

def message : EmitError → String
  | multipleDrivers node pin count =>
    "node `" ++ node ++ "`: input pin `" ++ pin ++ "` is driven by " ++ toString count
      ++ " drivers"
  | duplicateModule name => "duplicate module `" ++ name ++ "`"
  | malformedNode node reason => "node `" ++ node ++ "`: " ++ reason
  | missingDriver net => "constant net `" ++ net ++ "` has no driver"

end EmitError

/-- A broken promise of the caller. -/
inductive Fault where
  | unknownNode
  | unknownPin
  | unknownNet
  | unknownWire
  /-- An output pin used as a reader, or an input pin as a driver. -/
  | wrongDirection
  /-- A pin that the node's kind requires is not there. -/
  | missingPin
  /-- Two signals of different widths were joined. -/
  | widthMismatch
  | duplicateCell
  /-- A quantity does not fit 64 bits, or a list does not fit memory. -/
  | overflow
  /-- A bit lies past the last wire bit of its module. -/
  | bitOutOfRange
deriving DecidableEq, Repr

/-- What every node that is written as a primitive must have. -/
inductive Invariant where
  | firstInputPort
  | firstOutputPort
deriving DecidableEq, Repr

def Invariant.message : Invariant → String
  | firstInputPort => "emitted primitives have a non-empty first input port"
  | firstOutputPort => "emitted primitives have a non-empty first output port"

/-- Why a step of an emission run stopped. -/
inductive Failure where
  | error (e : EmitError)
  | violated (i : Invariant)
  | fault (f : Fault)
deriving DecidableEq, Repr

end CircuitLowering
