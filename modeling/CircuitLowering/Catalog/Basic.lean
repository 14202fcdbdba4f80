import CircuitLowering.Capacity
import CircuitLowering.Config
import CircuitLowering.Direction
import CircuitLowering.Event

/-!
# The catalog of hard-block models

A model is the interface of a hard block: its input and output ports in declared order. The
catalog holds models in the order of their first registration. Registering a model again replaces
its ports and nothing else.

This is the model catalog of the specification (section 4.1).
-/

namespace CircuitLowering

/-- The single-port memory, whose port sizes vary from instance to instance. -/
def singlePortRam : String := "single_port_ram"

def dualPortRam : String := "dual_port_ram"

/-- A port of a model. Its direction is its own: nothing makes the ports listed as inputs of a model
input ports. -/
structure ModelPort where
  name : String
  size : Nat
  direction : Direction
deriving DecidableEq, Repr

def ModelPort.input (name : String) (size : Nat) : ModelPort := { name, size, direction := .input }

def ModelPort.output (name : String) (size : Nat) : ModelPort := { name, size, direction := .output }

/-- The names of the port's bits: the bare name for a single bit, else the name with an index. -/
def ModelPort.bitNames (p : ModelPort) : List String :=
  if p.size = 1 then [p.name]
  else (List.range p.size).map fun i => p.name ++ "[" ++ toString i ++ "]"

/-- Whether the names of the port's bits fit memory. -/
def ModelPort.fits (p : ModelPort) : Bool := Capacity.fits Capacity.textBytes p.size

/-- The interface of a hard block. -/
structure Model where
  name : String
  inputs : List ModelPort
  outputs : List ModelPort
  /-- Whether the circuit instantiates the model. -/
  used : Bool := false
deriving DecidableEq, Repr

/-- The declared size of a port. -/
inductive PortSize where
  | fixed (size : Nat)
  /-- Each instance decides. -/
  | perInstance
  | notFound
deriving DecidableEq, Repr

namespace PortSize

/-- The size as one number: `-1` where instances decide and `0` without a port. -/
def raw : PortSize → Int
  | fixed size => min size 9223372036854775807
  | perInstance => -1
  | notFound => 0

def display : PortSize → String
  | fixed size => "Fixed(" ++ toString size ++ ")"
  | perInstance => "Variable"
  | notFound => "NotFound"

end PortSize

namespace Model

/-- The ports, each with the side of the model that lists it. -/
def ports (m : Model) : List (Direction × ModelPort) :=
  m.inputs.map (Direction.input, ·) ++ m.outputs.map (Direction.output, ·)

/-- The first port of a name, inputs before outputs. -/
def port? (m : Model) (name : String) : Option ModelPort :=
  (m.inputs ++ m.outputs).find? (·.name = name)

def portsFit (m : Model) : Bool := (m.inputs ++ m.outputs).all (·.fits)

/-- Whether each instance decides the port sizes. -/
def hasVariablePorts (m : Model) : Bool := m.name == singlePortRam || m.name == dualPortRam

/-- The size of a port; for the memories, whatever the name. -/
def portSize (m : Model) (name : String) : PortSize :=
  if m.hasVariablePorts then .perInstance
  else match m.port? name with
    | some p => .fixed p.size
    | none => .notFound

def portDirection? (m : Model) (name : String) : Option Direction := (m.port? name).map (·.direction)

/-- Sets the size of the first port of a name in a list. -/
def resizeFirst (name : String) (size : Nat) : List ModelPort → List ModelPort
  | [] => []
  | p :: rest =>
    if p.name = name then { p with size := size } :: rest else p :: resizeFirst name size rest

/-- Sets the size of the first port of a name, inputs before outputs. -/
def resize (m : Model) (name : String) (size : Nat) : Model :=
  if m.inputs.any (·.name = name) then { m with inputs := resizeFirst name size m.inputs }
  else { m with outputs := resizeFirst name size m.outputs }

end Model

/-- The models of an architecture, in the order of their first registration. -/
structure Catalog where
  models : List Model := []
deriving DecidableEq, Repr

namespace Catalog

def find? (c : Catalog) (name : String) : Option Model := c.models.find? (·.name = name)

def index? (c : Catalog) (name : String) : Option Nat := c.models.findIdx? (·.name = name)

def update (c : Catalog) (name : String) (f : Model → Model) : Catalog where
  models := c.models.map fun m => if m.name = name then f m else m

/-- Adds a model at the end, or replaces the ports of the model of that name. -/
def register (c : Catalog) (name : String) (inputs outputs : List ModelPort) : Catalog :=
  if (c.find? name).isSome then c.update name fun m => { m with inputs, outputs }
  else { models := c.models ++ [{ name, inputs, outputs }] }

def markUsed (c : Catalog) (name : String) : Catalog := c.update name ({ · with used := true })

def hasPort (c : Catalog) (model port : String) : Bool :=
  ((c.find? model).bind (·.port? port)).isSome

/-- Sets the size of a port, if model and port exist. -/
def setPortSize (c : Catalog) (model port : String) (size : Nat) : Catalog :=
  c.update model (·.resize port size)

/-! ### Split memories -/

/-- The sizes that the settings for split memories give to ports of the two memory models. -/
def memorySizes (config : Config) : List (String × String × Nat) :=
  let data (model : String) (ports : List String) : List (String × String × Nat) :=
    if config.splitMemoryWidth then ports.map (model, ·, 1) else []
  let addresses (model : String) (ports : List String) :
      Option UInt64 → List (String × String × Nat)
    | some depth => ports.map (model, ·, depth.toNat)
    | none => []
  data singlePortRam ["data", "out"] ++ addresses singlePortRam ["addr"] config.splitMemoryDepth
    ++ data dualPortRam ["data1", "data2", "out1", "out2"]
    ++ addresses dualPortRam ["addr1", "addr2"] config.dualPortDepth

/-- Gives the ports of the memory models the sizes that the settings ask for. -/
def applyMemorySizes (c : Catalog) (config : Config) : Catalog :=
  (memorySizes config).foldl (fun c (model, port, size) => c.setPortSize model port size) c

/-! ### Events -/

def registerEvents (c : Catalog) (name : String) : List Event :=
  if (c.find? name).isSome then [.modelOverridden name] else []

/-- What setting the size of a port tells: that the model has no such port. -/
def resizeEvents (c : Catalog) (model port : String) : List Event :=
  if (c.find? model).isSome && !c.hasPort model port then [.portNotResized model port] else []

def memorySizeEvents (c : Catalog) (config : Config) : List Event :=
  (memorySizes config).flatMap fun (model, port, _) => c.resizeEvents model port

end Catalog

end CircuitLowering
