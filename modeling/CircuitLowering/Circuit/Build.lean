import CircuitLowering.Catalog.Basic
import CircuitLowering.Circuit.Description
import CircuitLowering.Netlist.Basic

/-!
# Building a circuit from its description

Models are registered first, then the inputs of the circuit become nets, then the nodes are added
one after the other, and last the outputs of the circuit. A signal name denotes the net of the
input of that name, a constant net, or a net made when the name first occurs.

`CircuitDescription.build` is the meaning of a description and `CircuitDescription.events` what
building it tells.

This is the circuit loader of the specification (section 11, item 7).
-/

namespace CircuitLowering

/-- A circuit that is ready to be written. -/
structure Circuit where
  /-- The name of the top module, where the description gives one. -/
  top : Option String
  netlist : Netlist
  catalog : Catalog

/-- A circuit in the making. -/
structure Builder where
  catalog : Catalog
  netlist : Netlist := .initial
  /-- The net of each signal name; a later entry stands in front and counts. -/
  nets : List (String × NetId) := [
    (Netlist.groundName, Netlist.groundNet), (Netlist.powerName, Netlist.powerNet),
    (Netlist.padName, Netlist.padNet)]
  nodeNames : List String := []

namespace Builder

/-- The net of a signal name; a name that is new gets a new net. -/
def netOf (b : Builder) (name : String) : NetId × Builder :=
  match b.nets.lookup name with
  | some net => (net, b)
  | none =>
    let (net, netlist) := b.netlist.addNet (some name)
    (net, { b with netlist, nets := (name, net) :: b.nets })

def connect (b : Builder) (net : NetId) (pin : PinId) : Builder :=
  { b with netlist := b.netlist.connect net pin }

/-! ### Models and inputs -/

def declareModel (c : Catalog) (m : ModelDeclaration) : Catalog :=
  let c := c.register m.name (m.inputs.map fun p => .input p.name p.size.toNat)
    (m.outputs.map fun p => .output p.name p.size.toNat)
  if m.used then c.markUsed m.name else c

/-- Adds an input of the circuit. Its name denotes its net from here on, whatever the name denoted
before. -/
def addInput (b : Builder) (name : String) : Builder :=
  let (net, netlist) := b.netlist.addTopInput name
  { b with netlist, nets := (name, net) :: b.nets }

/-- The circuit before its nodes: models and inputs. -/
def start (d : CircuitDescription) : Builder :=
  d.inputs.foldl addInput { catalog := d.models.foldl declareModel {} }

/-! ### Nodes -/

/-- Checks that a port lists as many pins as it declares. -/
def checkSize (node : String) (port : PortBinding) : Except CircuitError Unit :=
  match port.size with
  | some size =>
    if size.toNat = port.nets.length then .ok ()
    else .error (.portSizeMismatch node port.mapping size.toNat port.nets.length)
  | none => .ok ()

/-- Connects an input pin to the net of a name, or to the open net without one. -/
def bindInput (b : Builder) (pin : PinId) : Option String → Builder
  | some name =>
    let (net, b) := b.netOf name
    b.connect net pin
  | none => b.connect Netlist.padNet pin

/-- Makes an output pin drive the net of a name and gives it that name; without a name it drives a
net of its own. A constant net cannot be driven. -/
def bindOutput (node : String) (b : Builder) (pin : PinId) :
    Option String → Except CircuitError Builder
  | some name =>
    let (net, b) := b.netOf name
    if Netlist.isConstantNet net then .error (.drivesConstant node name)
    else .ok ({ b with netlist := b.netlist.setPinName pin (some name) }.connect net pin)
  | none =>
    let (net, netlist) := b.netlist.addNet none
    .ok ({ b with netlist }.connect net pin)

def addInputPort (node : String) (id : NodeId) (b : Builder) (port : PortBinding) :
    Except CircuitError Builder := do
  checkSize node port
  let (pins, netlist) := b.netlist.attachPort id port.mapping port.nets.length .input
  return (pins.zip port.nets).foldl (fun b (pin, net) => b.bindInput pin net) { b with netlist }

def addOutputPort (node : String) (id : NodeId) (b : Builder) (port : PortBinding) :
    Except CircuitError Builder := do
  checkSize node port
  let (pins, netlist) := b.netlist.attachPort id port.mapping port.nets.length .output
  (pins.zip port.nets).foldlM (fun b (pin, net) => b.bindOutput node pin net) { b with netlist }

def addParam (id : NodeId) (b : Builder) (param : String × ParamDeclaration) :
    Except CircuitError Builder := do
  let value ← param.2.toParam
  return { b with netlist := b.netlist.setParam id param.1 value }

/-- Marks the model of a hard block as instantiated. Other nodes mark nothing. -/
def markModel (c : Catalog) : NodeKind → Catalog
  | .hardBlock model => c.markUsed model
  | _ => c

/-- Adds a node: its name is checked first, then its kind is read, then its ports are added, inputs
before outputs, and last its parameters. -/
def addNode (b : Builder) (d : NodeDeclaration) : Except CircuitError Builder := do
  if d.name ∈ b.nodeNames then throw (.duplicateNode d.name)
  let kind ← d.kind.toKind
  let (id, netlist) := b.netlist.addNode d.name kind
  let b := { b with
    netlist, catalog := markModel b.catalog kind, nodeNames := d.name :: b.nodeNames }
  let b ← d.inputs.foldlM (addInputPort d.name id) b
  let b ← d.outputs.foldlM (addOutputPort d.name id) b
  d.params.entries.foldlM (addParam id) b

/-- Adds an output of the circuit that reads the net of its name. -/
def addOutput (b : Builder) (name : String) : Builder :=
  let (net, b) := b.netOf name
  { b with netlist := (b.netlist.attachTopOutput name net).2 }

/-! ### Events -/

def modelEvents (c : Catalog) : List ModelDeclaration → List Event
  | [] => []
  | m :: rest => c.registerEvents m.name ++ modelEvents (declareModel c m) rest

/-- What adding a node tells: nothing until its name and kind are found good. -/
def nodeEvents (b : Builder) (d : NodeDeclaration) : List Event :=
  if d.name ∈ b.nodeNames then []
  else match d.kind.toKind with
    | .error _ => []
    | .ok (.hardBlock model) =>
      if (b.catalog.find? model).isSome then [.nodeLoaded d.name]
      else [.unlistedModel d.name model, .nodeLoaded d.name]
    | .ok _ => [.nodeLoaded d.name]

/-- What adding nodes tells, up to the first that fails. -/
def nodesEvents (b : Builder) : List NodeDeclaration → List Event
  | [] => []
  | d :: rest =>
    b.nodeEvents d ++
      match b.addNode d with
      | .ok b => b.nodesEvents rest
      | .error _ => []

end Builder

namespace CircuitDescription

/-- The circuit that a description stands for, or the first thing wrong with it. -/
def build (d : CircuitDescription) : Except CircuitError Circuit := do
  let b ← d.nodes.foldlM Builder.addNode (Builder.start d)
  let b := d.outputs.foldl Builder.addOutput b
  return { top := d.top, netlist := b.netlist, catalog := b.catalog }

def events (d : CircuitDescription) : List Event :=
  Builder.modelEvents {} d.models ++ (Builder.start d).nodesEvents d.nodes

end CircuitDescription

end CircuitLowering
