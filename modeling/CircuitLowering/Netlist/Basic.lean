import CircuitLowering.Capacity
import CircuitLowering.Direction
import CircuitLowering.Failure
import CircuitLowering.Netlist.Kind
import CircuitLowering.Ordered
import CircuitLowering.Param

/-!
# Netlists

A circuit as a graph. A node has pins, grouped into ports; a net joins the output pins that drive
it to the input pins that read it. Nodes, pins and nets are numbered in the order in which they
were added and are never removed. Every netlist starts with three constant nets, each driven by a
node of its own: ground, power and the net that is left open.

An operation is total and does nothing where its arguments make no sense; `addPort`, `connectSink`
and `connectDriver` are the checked forms, which report such arguments as a `Fault`.

Nodes, pins and nets are the data model of the specification (section 3).
-/

namespace CircuitLowering

abbrev NodeId := Nat

abbrev PinId := Nat

abbrev NetId := Nat

structure Pin where
  /-- The name of the signal, if the pin has one. -/
  name : Option String := none
  /-- The label of the port that the pin belongs to. -/
  mapping : String
  direction : Direction
  node : NodeId
  /-- The net that an input pin reads or an output pin drives. -/
  net : Option NetId := none
deriving DecidableEq, Repr

/-- A net: the pins that drive it and the pins that read it. -/
structure Net where
  name : Option String := none
  drivers : List PinId := []
  sinks : List PinId := []
deriving DecidableEq, Repr, Inhabited

namespace Net

def pins (n : Net) : Direction → List PinId
  | .input => n.sinks
  | .output => n.drivers

def attach (n : Net) (pin : PinId) : Direction → Net
  | .input => { n with sinks := n.sinks ++ [pin] }
  | .output => { n with drivers := n.drivers ++ [pin] }

def detach (n : Net) (pin : PinId) : Direction → Net
  | .input => { n with sinks := n.sinks.filter (· ≠ pin) }
  | .output => { n with drivers := n.drivers.filter (· ≠ pin) }

end Net

structure Node where
  name : String
  kind : NodeKind
  /-- The input pins in the order of their ports. -/
  inputs : List PinId := []
  /-- The number of pins of each input port. -/
  inputSizes : List Nat := []
  outputs : List PinId := []
  /-- The number of pins of each output port. -/
  outputSizes : List Nat := []
  params : Ordered Param := .empty
  /-- The mark of the last run that visited the node. -/
  mark : UInt16 := 0

namespace Node

def addPort (n : Node) (pins : List PinId) : Direction → Node
  | .input =>
    { n with inputs := n.inputs ++ pins, inputSizes := n.inputSizes ++ [pins.length] }
  | .output =>
    { n with outputs := n.outputs ++ pins, outputSizes := n.outputSizes ++ [pins.length] }

/-- The number of pins of the first input port, zero without one. -/
def firstInputSize (n : Node) : Nat := n.inputSizes.headD 0

def firstOutputSize (n : Node) : Nat := n.outputSizes.headD 0

end Node

/-- A circuit as a graph. -/
structure Netlist where
  nodes : Array Node := #[]
  pins : Array Pin := #[]
  nets : Array Net := #[]
  topInputs : List NodeId := []
  topOutputs : List NodeId := []

namespace Netlist

/-! ### Looking up -/

def node (nl : Netlist) (id : NodeId) : Except Fault Node :=
  match nl.nodes[id]? with
  | some n => .ok n
  | none => .error .unknownNode

def pin (nl : Netlist) (id : PinId) : Except Fault Pin :=
  match nl.pins[id]? with
  | some p => .ok p
  | none => .error .unknownPin

def net (nl : Netlist) (id : NetId) : Except Fault Net :=
  match nl.nets[id]? with
  | some n => .ok n
  | none => .error .unknownNet

def findNode? (nl : Netlist) (name : String) : Option NodeId :=
  nl.nodes.findIdx? (·.name = name)

/-- The name of a pin's signal, else the names of its node and port. -/
def pinLabel (nl : Netlist) (id : PinId) : Except Fault String := do
  let p ← nl.pin id
  match p.name with
  | some name => return name
  | none => return (← nl.node p.node).name ++ "." ++ p.mapping

/-- The name of the signal that a pin drives: its own name, else that of its node. -/
def driverName (nl : Netlist) (id : PinId) : Except Fault String := do
  let p ← nl.pin id
  match p.name with
  | some name => return name
  | none => return (← nl.node p.node).name

/-! ### Adding nodes, nets and ports -/

def addNode (nl : Netlist) (name : String) (kind : NodeKind) : NodeId × Netlist :=
  (nl.nodes.size, { nl with nodes := nl.nodes.push { name, kind } })

def addNet (nl : Netlist) (name : Option String) : NetId × Netlist :=
  (nl.nets.size, { nl with nets := nl.nets.push { name } })

/-- Adds a port of `size` pins that have no name and no net. -/
def attachPort (nl : Netlist) (node : NodeId) (mapping : String) (size : Nat)
    (direction : Direction) : List PinId × Netlist :=
  let ids := List.range' nl.pins.size size
  (ids,
    { nl with
      pins := nl.pins ++ Array.replicate size { mapping, direction, node }
      nodes := nl.nodes.modify node (·.addPort ids direction) })

/-- Adds a port whose pins fit memory to a node that exists. -/
def addPort (nl : Netlist) (node : NodeId) (mapping : String) (size : Nat)
    (direction : Direction) : Except Fault (List PinId × Netlist) :=
  if node < nl.nodes.size then do
    Capacity.ensure Capacity.numberBytes size
    return nl.attachPort node mapping size direction
  else .error .unknownNode

/-! ### Connecting pins and nets -/

/-- Moves a pin from its net, if it has one, to the given net. -/
def connect (nl : Netlist) (net : NetId) (pin : PinId) : Netlist :=
  match nl.pins[pin]? with
  | none => nl
  | some p =>
    let left := match p.net with
      | some old => nl.nets.modify old (·.detach pin p.direction)
      | none => nl.nets
    { nl with
      pins := nl.pins.modify pin ({ · with net := some net })
      nets := left.modify net (·.attach pin p.direction) }

/-- Connects a pin that must have the given direction. -/
def connectAs (direction : Direction) (nl : Netlist) (net : NetId) (pin : PinId) :
    Except Fault Netlist := do
  let p ← nl.pin pin
  if p.direction ≠ direction then throw .wrongDirection
  discard <| nl.net net
  return nl.connect net pin

def connectSink : Netlist → NetId → PinId → Except Fault Netlist := connectAs .input

def connectDriver : Netlist → NetId → PinId → Except Fault Netlist := connectAs .output

/-! ### Names, parameters and marks -/

/-- Gives a pin a name, or takes its name away. -/
def setPinName (nl : Netlist) (pin : PinId) (name : Option String) : Netlist :=
  { nl with pins := nl.pins.modify pin ({ · with name := name }) }

def setParam (nl : Netlist) (node : NodeId) (name : String) (value : Param) : Netlist :=
  { nl with nodes := nl.nodes.modify node fun n => { n with params := n.params.insert name value } }

def setMark (nl : Netlist) (node : NodeId) (mark : UInt16) : Netlist :=
  { nl with nodes := nl.nodes.modify node ({ · with mark := mark }) }

/-! ### The boundary and the constants -/

/-- Adds a node with one output pin that drives a net, all of one name. -/
def addSource (nl : Netlist) (name : String) (kind : NodeKind) : NodeId × NetId × Netlist :=
  let (node, nl) := nl.addNode name kind
  let (net, nl) := nl.addNet (some name)
  let (pins, nl) := nl.attachPort node name 1 .output
  (node, net,
    pins.foldl (fun nl pin => (nl.setPinName pin (some name)).connect net pin) nl)

/-- Adds an input of the circuit; the answer is the net that it drives. -/
def addTopInput (nl : Netlist) (name : String) : NetId × Netlist :=
  let (node, net, nl) := nl.addSource name .input
  (net, { nl with topInputs := nl.topInputs ++ [node] })

/-- Adds an output of the circuit that reads a net. -/
def attachTopOutput (nl : Netlist) (name : String) (net : NetId) : NodeId × Netlist :=
  let (node, nl) := nl.addNode name .output
  let (pins, nl) := nl.attachPort node name 1 .input
  let nl := pins.foldl (fun nl pin => nl.connect net pin) nl
  (node, { nl with topOutputs := nl.topOutputs ++ [node] })

def addTopOutput (nl : Netlist) (name : String) (net : NetId) : Except Fault (NodeId × Netlist) :=
  if net < nl.nets.size then .ok (nl.attachTopOutput name net) else .error .unknownNet

def groundName : String := "gnd"

def powerName : String := "vcc"

def padName : String := "unconn"

/-- The net that is always zero. -/
def groundNet : NetId := 0

/-- The net that is always one. -/
def powerNet : NetId := 1

/-- The net that is left open. -/
def padNet : NetId := 2

/-- Whether a net is one of the three constant nets. -/
def isConstantNet (net : NetId) : Bool := net < 3

/-- The netlist that holds the constant nets and nothing else. -/
def initial : Netlist :=
  let (_, _, nl) := addSource {} groundName .ground
  let (_, _, nl) := addSource nl powerName .power
  let (_, _, nl) := addSource nl padName .pad
  nl

end Netlist

end CircuitLowering
