import CircuitLowering.Bit
import CircuitLowering.Capacity

/-!
# Signals

A signal is a vector of bits, least significant bit first; each is a constant or a bit of a wire.
-/

namespace CircuitLowering

/-- A bit of a signal. -/
inductive SignalBit where
  | const (value : Bit)
  /-- Bit `offset` of the wire `name`. -/
  | wire (name : String) (offset : Nat)
deriving DecidableEq, Repr

/-- A vector of bits, least significant bit first. -/
abbrev Signal := List SignalBit

namespace Signal

def ofWire (name : String) (width : Nat) : Signal := (List.range width).map (.wire name)

def ofWireChecked (name : String) (width : Nat) : Except Fault Signal :=
  if Capacity.fits Capacity.signalBitBytes width then .ok (ofWire name width) else .error .overflow

end Signal

end CircuitLowering
