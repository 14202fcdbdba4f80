import CircuitLowering.Emission.Basic

/-!
# Drivers

An input pin takes its value from the one driver of its net. A pin without a net, or on a net that
nothing drives, is moved to the ground net and reported. A constant net is never taken for undriven:
if it has lost its driver, that is an error, and so are several drivers on one net.

This is the driver resolver of the specification (section 4.2).
-/

namespace CircuitLowering

/-- The driver of an input pin. -/
structure Driver where
  pin : PinId
  name : String
  /-- Whether the input was undriven and is now tied to ground. -/
  padded : Bool
  constant : Option Bit
deriving DecidableEq, Repr

namespace Emit

/-- The net that an input can be resolved on: its net, if that is driven or constant. -/
def liveNet? (pin : Pin) : Emit (Option NetId) :=
  match pin.net with
  | none => return none
  | some net => do
    let n ← ask (·.net net)
    return if n.drivers.isEmpty && !Netlist.isConstantNet net then none else some net

/-- Ties a pin to ground and reports it. -/
def tieToGround (id : PinId) (node : String) : Emit Unit := do
  let label ← ask (·.pinLabel id)
  tell (.inputTied node label)
  modifyReport fun r => { r with diagnostics := r.diagnostics ++ [{ node, pin := label }] }
  let netlist ← ask (·.connectSink Netlist.groundNet id)
  modifyNetlist fun _ => netlist

/-- The driver that sits at an output pin. -/
def driverAt (pin : PinId) (padded : Bool) : Emit Driver := do
  let name ← ask (·.driverName pin)
  let owner ← ask fun nl => do nl.node (← nl.pin pin).node
  return { pin, name, padded, constant := owner.kind.constant? }

/-- The one driver of a net, from which the pin `id` of a node is to be read. -/
def soleDriver (id : PinId) (node : String) (net : NetId) (padded : Bool) : Emit Driver := do
  let n ← ask (·.net net)
  match n.drivers with
  | [] => fail (.missingDriver (n.name.getD ("w" ++ toString net)))
  | [driver] => driverAt driver padded
  | drivers => do
    let label ← ask (·.pinLabel id)
    fail (.multipleDrivers node label drivers.length)

/-- The one driver of the net that a pin reads, after tying the pin to ground if nothing drives
it. -/
def resolve (id : PinId) : Emit Driver := do
  let pin ← ask (·.pin id)
  let node ← ask (·.node pin.node)
  let live ← liveNet? pin
  if live.isNone then tieToGround id node.name
  soleDriver id node.name (live.getD Netlist.groundNet) live.isNone

end Emit

end CircuitLowering
