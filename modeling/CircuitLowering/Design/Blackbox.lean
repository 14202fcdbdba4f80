import CircuitLowering.Catalog.Basic
import CircuitLowering.Design.Basic
import CircuitLowering.Design.Bus
import CircuitLowering.Netlist.Kind

/-!
# Blackbox modules

The module of a model that shows its ports alone. Every bit of a port is first a port of its own;
then the bits are put together to buses.

This is the blackbox synthesizer of the specification (section 4.6).
-/

namespace CircuitLowering

namespace Catalog

/-- Whether a model is to be declared: it is used or among the referenced ones. -/
def isWanted (referenced : List String) (m : Model) : Bool :=
  m.used || referenced.contains m.name

/-- Whether a model never gets a declaration, because the arithmetic path has one. -/
def isReserved (m : Model) : Bool := isArithmeticModel m.name

/-- The models to declare, in the order of the catalog. -/
def blackboxModels (c : Catalog) (referenced : List String) : List Model :=
  c.models.filter fun m => isWanted referenced m && !isReserved m

def reservedEvents (referenced : List String) (m : Model) : List Event :=
  if isWanted referenced m && isReserved m then [.reservedSkipped m.name] else []

end Catalog

namespace Model

/-- The names of all bits of the model's ports with their directions, in declared order. -/
def bitPorts (m : Model) : List (String × Direction) :=
  m.ports.flatMap fun (direction, port) => port.bitNames.map (·, direction)

def scalarModule (m : Model) : Module :=
  m.bitPorts.foldl (fun module (name, direction) => module.addPort name 1 direction) {}

/-- The buses that the bits make. The ports must fit memory. -/
def buses (m : Model) : Except Fault Buses :=
  if m.portsFit then
    m.bitPorts.foldlM (fun bs (name, direction) => Buses.observe bs name direction) .empty
  else .error .overflow

def blackbox (m : Model) : Except Fault Module := do
  let module ← (← m.buses).materialize m.scalarModule
  return module.numberPorts.setBlackbox

def blackboxEvents (m : Model) : List Event :=
  match m.buses with
  | .error _ => []
  | .ok bs =>
    bs.events m.name m.scalarModule ++
      match m.blackbox with
      | .ok _ => [.blackboxDeclared m.name]
      | .error _ => []

end Model

end CircuitLowering
