import CircuitLowering.Catalog.Basic
import CircuitLowering.Netlist.Basic
import CircuitLowering.Text.Subscript

/-!
# Slots

The pins of a node stand in one list; the declared port sizes cut that list into ports. A slot is a
pin with its place: the number of its port, its index within the port and the size of the port.
From it follow the name a pin is bound under, the names of outputs that have none, and the
comparison of a node with its model.

How ports are bound and outputs are named is in section 4.4 of the specification.
-/

namespace CircuitLowering

/-- A pin and its place among the ports of its node. -/
structure Slot where
  pin : PinId
  /-- The number of the port, in declared order. -/
  port : Nat
  /-- The index of the pin within its port. -/
  index : Nat
  portSize : Nat
deriving DecidableEq, Repr

namespace Slot

/-- Cuts `pins` into ports of the given sizes; `port` is the number of the first of them. -/
def cutFrom (port : Nat) (pins : List PinId) : List Nat → List Slot
  | [] => []
  | size :: sizes =>
    ((pins.take size).zipIdx.map fun (pin, index) => { pin, port, index, portSize := size })
      ++ cutFrom (port + 1) (pins.drop size) sizes

/-- Cuts `pins` into ports of the given sizes. Pins beyond the last port have no slot. -/
def cut (pins : List PinId) (sizes : List Nat) : List Slot := cutFrom 0 pins sizes

/-- The name under which a pin of a port labelled `mapping` is bound: the label itself in a port of
one pin, else the label with the index. -/
def bindingName (mapping : String) (slot : Slot) : String :=
  if slot.portSize = 1 then mapping else Text.Subscript.join mapping slot.index

/-- The name that an output pin without a name gets. -/
def outputName (node mapping : String) (slot : Slot) : String :=
  if slot.portSize = 1 then node ++ "^" ++ mapping
  else node ++ "^" ++ mapping ++ "~" ++ toString slot.index

end Slot

namespace Node

def inputSlots (n : Node) : List Slot := Slot.cut n.inputs n.inputSizes

def outputSlots (n : Node) : List Slot := Slot.cut n.outputs n.outputSizes

end Node

namespace Netlist

/-! ### Naming outputs -/

/-- Names the pin of a slot, unless it has a name. -/
def nameSlot (node : String) (nl : Netlist) (slot : Slot) : Netlist :=
  { nl with
    pins := nl.pins.modify slot.pin fun p =>
      { p with name := some (p.name.getD (slot.outputName node p.mapping)) } }

/-- Names the outputs of a node that have no name and sets its mark. -/
def instantiate (nl : Netlist) (id : NodeId) (mark : UInt16) : Netlist :=
  match nl.nodes[id]? with
  | none => nl
  | some n => (n.outputSlots.foldl (nameSlot n.name) nl).setMark id mark

def primitiveIds (nl : Netlist) : List NodeId :=
  (List.range nl.nodes.size).filter fun id => nl.nodes[id]?.any (·.kind.isPrimitive)

/-- Names the outputs of all primitives and sets their marks, so that the name of a driver does
not depend on the order in which nodes are written. -/
def instantiateAll (nl : Netlist) (mark : UInt16) : Netlist :=
  nl.primitiveIds.foldl (fun nl id => nl.instantiate id mark) nl

end Netlist

/-! ### Comparing a node with its model -/

/-- A port of a node that is not as the model declares it. -/
structure PortMismatch where
  port : String
  foundSize : Nat
  foundDirection : Direction
  /-- What the model declares; `none` when it has no such port. -/
  declared : Option (PortSize × Direction)
deriving DecidableEq, Repr

namespace PortMismatch

def displayFound (m : PortMismatch) : String :=
  "(" ++ toString m.foundSize ++ ", " ++ m.foundDirection.display ++ ")"

def displayDeclared (m : PortMismatch) : String :=
  match m.declared with
  | none => "None"
  | some (size, direction) => "Some((" ++ size.display ++ ", " ++ direction.display ++ "))"

end PortMismatch

namespace Netlist

/-- Compares the port of a slot with the model: direction and, unless instances decide it, size
must agree. -/
def mismatch? (nl : Netlist) (model : Model) (slot : Slot) : Option PortMismatch := do
  let pin ← nl.pins[slot.pin]?
  let size := model.portSize pin.mapping
  let declared := (model.portDirection? pin.mapping).map fun direction => (size, direction)
  if declared.any fun d =>
      d.2 = pin.direction ∧ (d.1 = .perInstance ∨ d.1 = .fixed slot.portSize) then none
  else some {
    port := pin.mapping, foundSize := slot.portSize, foundDirection := pin.direction, declared }

/-- The ports of a node that are not as the model declares them, inputs first. -/
def mismatches (nl : Netlist) (model : Model) (n : Node) : List PortMismatch :=
  ((n.inputSlots ++ n.outputSlots).filter (·.index = 0)).filterMap (nl.mismatch? model)

end Netlist

end CircuitLowering
