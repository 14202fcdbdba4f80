import CircuitLowering.Design.Basic
import CircuitLowering.Design.Bus
import CircuitLowering.Emission.Primitive

/-!
# Cells of primitives

The cell that stands for a primitive in a design, together with the wires that it needs. Built-in
kinds have fixed types and ports. A hard block or skip block is an instance of its model, with the
bits of its ports put together to buses. The parameters of the node come last and are never changed.

This is the design-graph sink of the primitive emitter (specification, section 4.4; section 11, items 2, 4
and 6).
-/

namespace CircuitLowering

namespace Module

/-- The bit that a driver drives: its constant, or bit zero of the wire of its name. -/
def driverBit (m : Module) (d : Driver) : SignalBit × Module :=
  match d.constant with
  | some value => (.const value, m)
  | none => (.wire d.name 0, m.addWire d.name 1)

/-- The bits of drivers, in their order. -/
def driverBits (m : Module) : List Driver → Signal × Module
  | [] => ([], m)
  | d :: rest =>
    let (bit, m) := m.driverBit d
    let (bits, m) := m.driverBits rest
    (bit :: bits, m)

/-- Bit zero of the wires of outputs, in their order. -/
def outputBits (m : Module) (outputs : List OutputBinding) : Signal × Module :=
  (outputs.map fun o => .wire o.name 0, outputs.foldl (fun m o => m.addWire o.name 1) m)

end Module

namespace Cell

def setParams (c : Cell) (params : List (String × Param)) : Cell :=
  params.foldl (fun c (name, value) => c.setParam name value) c

/-- Binds the ports that are no bits of buses and collects the others. -/
def bindScalars (direction : Direction) (state : Cell × CellBuses) (binding : String × SignalBit) :
    Cell × CellBuses :=
  match state.2.take? binding.1 binding.2 with
  | some buses => (state.1, buses)
  | none => (state.1.bind binding.1 [binding.2] direction, state.2)

def bindBuses (c : Cell) (direction : Direction) (buses : List (String × Signal)) : Cell :=
  buses.foldl (fun c (base, signal) => c.bind base signal direction) c

/-- The cell of an instance of a model. Single ports are bound first, inputs before outputs, then
buses, again inputs before outputs. -/
def ofInstance (m : Module) (c : Cell) (calleeWidth? : String → Option Nat)
    (inputs outputs : List (String × SignalBit)) : Except Fault (Cell × Module) := do
  let (c, inputBuses) := inputs.foldl (bindScalars .input) (c, Ordered.empty)
  let (c, outputBuses) := outputs.foldl (bindScalars .output) (c, Ordered.empty)
  let (inputSignals, m) ← inputBuses.materialize m calleeWidth?
  let (outputSignals, m) ← outputBuses.materialize m calleeWidth?
  return ((c.bindBuses .input inputSignals).bindBuses .output outputSignals, m)

/-- The cell of a gate with the one input `A` and the one output `Y`. -/
def ofGate (c : Cell) (inputs outputs : Signal) : Cell :=
  (c.bind "A" inputs .input).bind "Y" outputs .output

/-- Notes the start value of a register on the wire of its output. -/
def noteInit (m : Module) (init : InitValue) (p : Primitive) : Module :=
  match init.bit?, p.outputs.head? with
  | some value, some output =>
    m.modifyWire output.name fun w =>
      { w with attributes := w.attributes.insert "init" (.bits [value]) }
  | _, _ => m

/-- The cell of a primitive without the parameters of its node. -/
def ofKind (m : Module) (d : Design) (n : Node) (p : Primitive) (inputs outputs : Signal) :
    Except Fault (Cell × Module) :=
  let c : Cell := { type := p.cellType }
  match n.kind with
  | .lut width mask =>
    let c := c.setParams [
      ("WIDTH", .ofCount width),
      ("LUT", .bits (Bits.resize (Nat.pow 2 width) mask))]
    .ok (c.ofGate inputs outputs, m)
  | .sop width depth table =>
    if Capacity.fits 1 (2 * width * depth) then
      let c := c.setParams [
        ("WIDTH", .ofCount width),
        ("DEPTH", .ofCount depth),
        ("TABLE", .bits (Bits.resize (2 * width * depth) table))]
      .ok (c.ofGate inputs outputs, m)
    else .error .overflow
  | .reduceOr | .reduceAnd =>
    let c := c.setParams [
      ("A_SIGNED", .ofInt 0),
      ("A_WIDTH", .ofCount n.firstInputSize),
      ("Y_WIDTH", .ofCount n.firstOutputSize)]
    .ok (c.ofGate inputs outputs, m)
  | .register edge init =>
    match inputs with
    | data :: clock :: _ =>
      let c := c.setParams [
        ("CLK_POLARITY", .ofBool (edge = .rising)),
        ("WIDTH", .ofCount 1)]
      let c := ((c.bind "CLK" [clock] .input).bind "D" [data] .input).bind "Q" outputs .output
      .ok (c, noteInit m init p)
    | _ => .error .missingPin
  | _ =>
    let calleeWidth? (base : String) : Option Nat :=
      ((d.module? p.cellType).bind (·.wires.get? base)).map (·.width)
    ofInstance m c calleeWidth? ((p.inputs.map (·.port)).zip inputs)
      ((p.outputs.map (·.port)).zip outputs)

/-- The cell of a primitive, and the module with the wires that it needs. -/
def ofPrimitive (m : Module) (d : Design) (n : Node) (p : Primitive) :
    Except Fault (Cell × Module) := do
  let (inputs, m) := m.driverBits (p.inputs.map (·.driver))
  let (outputs, m) := m.outputBits p.outputs
  let (c, m) ← ofKind m d n p inputs outputs
  return (c.setParams n.params.entries, m)

end Cell

end CircuitLowering
