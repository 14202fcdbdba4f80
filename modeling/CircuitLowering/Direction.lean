/-!
# Directions

The direction of a pin, of a model's port and of a wire that is a port.
-/

namespace CircuitLowering

/-- Which way a signal passes. -/
inductive Direction where
  | input
  | output
deriving DecidableEq, Repr, Inhabited

def Direction.display : Direction → String
  | input => "Input"
  | output => "Output"

end CircuitLowering
