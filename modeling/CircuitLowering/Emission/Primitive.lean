import CircuitLowering.Emission.Driver

/-!
# Primitives

A primitive is a node together with everything that writing it needs: each input pin bound to its
driver and each output pin bound to its own name, under the names of their slots.

This is what both sinks of the primitive emitter are fed with (specification, section 4.4).
-/

namespace CircuitLowering

/-- An input pin bound to its driver. -/
structure InputBinding where
  /-- The name under which the pin is bound. -/
  port : String
  slot : Slot
  driver : Driver
deriving DecidableEq, Repr

/-- An output pin bound to its name. -/
structure OutputBinding where
  port : String
  slot : Slot
  name : String
deriving DecidableEq, Repr

/-- A node with its pins bound. -/
structure Primitive where
  node : NodeId
  name : String
  /-- The model, or the fixed type of a built-in kind. -/
  cellType : String
  inputs : List InputBinding
  outputs : List OutputBinding
deriving DecidableEq, Repr

namespace Primitive

def inputNames (p : Primitive) : List String := p.inputs.map (·.driver.name)

def portInputs (p : Primitive) (port : Nat) : List InputBinding :=
  p.inputs.filter (·.slot.port = port)

/-- The name of the first output, empty without outputs. -/
def outputName (p : Primitive) : String := (p.outputs.head?.map (·.name)).getD ""

end Primitive

namespace Node

/-- The widest lookup table that is written. -/
def maxLutWidth : Nat := 20

/-- Why the pins of a truth table with `width` inputs do not fit, if they do not. -/
def tableError? (n : Node) (width : Nat) : Option String :=
  if n.inputs.length ≠ width then
    some (toString width ++ "-input table has " ++ toString n.inputs.length ++ " input pins")
  else if n.outputs.length ≠ 1 then
    some ("truth tables have one output, found " ++ toString n.outputs.length)
  else none

/-- Why the pins of a node do not fit its kind, if they do not. -/
def shapeError? (n : Node) : Option String :=
  match n.kind with
  | .lut width _ =>
    if maxLutWidth < width then
      some (toString width ++ "-input LUT is wider than " ++ toString maxLutWidth ++ " inputs")
    else n.tableError? width
  | .sop width _ _ => n.tableError? width
  | .register .. =>
    if n.inputs.length ≠ 2 ∨ n.outputs.length ≠ 1 then
      some ("register needs data and clock inputs and one output, found "
        ++ toString n.inputs.length ++ " and " ++ toString n.outputs.length)
    else none
  | _ => none

end Node

namespace Emit

def bindingName (slot : Slot) : Emit String :=
  return slot.bindingName (← ask (·.pin slot.pin)).mapping

/-- Binds input pins to their drivers, one after the other. -/
def bindInputs : List Slot → Emit (List InputBinding)
  | [] => return []
  | slot :: rest => do
    let port ← bindingName slot
    let driver ← resolve slot.pin
    return { port, slot, driver } :: (← bindInputs rest)

def bindOutputs : List Slot → Emit (List OutputBinding)
  | [] => return []
  | slot :: rest => do
    let port ← bindingName slot
    let name ← ask (·.pinLabel slot.pin)
    return { port, slot, name } :: (← bindOutputs rest)

/-- Binds the pins of a node, which must fit its kind. -/
def assemble (id : NodeId) : Emit Primitive := do
  let n ← ask (·.node id)
  require .firstInputPort (0 < n.firstInputSize)
  require .firstOutputPort (0 < n.firstOutputSize)
  if let some reason := n.shapeError? then fail (.malformedNode n.name reason)
  tell (.primitiveAssembled n.name n.kind.display)
  let inputs ← bindInputs n.inputSlots
  let outputs ← bindOutputs n.outputSlots
  return { node := id, name := n.name, cellType := n.kind.cellType?.getD "", inputs, outputs }

end Emit

end CircuitLowering
