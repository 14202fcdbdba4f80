import CircuitLowering.Design.Signal
import CircuitLowering.Direction
import CircuitLowering.Event
import CircuitLowering.Failure
import CircuitLowering.Ordered
import CircuitLowering.Param

/-!
# Modules

A module has wires, cells whose ports are bound to signals, and connections between signals. Wires
are never removed and never become narrower.
-/

namespace CircuitLowering

structure Wire where
  width : Nat
  /-- The direction, if the wire is a port of its module. -/
  direction : Option Direction := none
  /-- The place among the ports, counted from one; zero without a place. -/
  portId : Nat := 0
  attributes : Ordered Param := .empty

def Wire.isPort (w : Wire) : Bool := w.direction.isSome

/-- The binding of a cell's port. -/
structure Connection where
  signal : Signal
  direction : Direction
deriving DecidableEq, Repr

/-- An instance of a built-in type or of a module. -/
structure Cell where
  type : String
  /-- The bound ports in the order of their binding. -/
  ports : Ordered Connection := .empty
  params : Ordered Param := .empty
  attributes : Ordered Param := .empty

namespace Cell

def bind (c : Cell) (port : String) (signal : Signal) (direction : Direction) : Cell :=
  { c with ports := c.ports.insert port { signal, direction } }

def setParam (c : Cell) (name : String) (value : Param) : Cell :=
  { c with params := c.params.insert name value }

end Cell

structure Module where
  wires : Ordered Wire := .empty
  cells : Ordered Cell := .empty
  /-- The connections, each as the driven and the driving signal. -/
  connections : List (Signal × Signal) := []
  attributes : Ordered Param := .empty
  /-- The first number not yet tried for the name of a fresh wire. -/
  nextFresh : Nat := 0

namespace Module

/-! ### Wires -/

/-- Adds a wire, or widens the wire of that name if it is narrower. -/
def addWire (m : Module) (name : String) (width : Nat) : Module :=
  match m.wires.get? name with
  | none => { m with wires := m.wires.insert name { width } }
  | some w => { m with wires := m.wires.insert name { w with width := max w.width width } }

/-- What adding a wire tells: that a wire became wider. -/
def addWireEvents (m : Module) (name : String) (width : Nat) : List Event :=
  match m.wires.get? name with
  | none => []
  | some w => if w.width < width then [.wireWidened name w.width width] else []

def modifyWire (m : Module) (name : String) (f : Wire → Wire) : Module :=
  { m with wires := m.wires.modify name f }

/-- Makes a wire a port, or with `none` an inner wire. -/
def setDirection (m : Module) (name : String) (direction : Option Direction) : Module :=
  m.modifyWire name ({ · with direction := direction })

def addPort (m : Module) (name : String) (width : Nat) (direction : Direction) : Module :=
  (m.addWire name width).setDirection name (some direction)

def freshName (n : Nat) : String := "$auto$" ++ toString n

/-- The first number from `n` on whose name is free, looking at `tries` numbers beyond `n` at
most. -/
def seekFresh (m : Module) (n : Nat) : Nat → Nat
  | 0 => n
  | tries + 1 => if m.wires.contains (freshName n) then m.seekFresh (n + 1) tries else n

/-- The number of the next fresh wire. As many tries as there are wires are enough, since the names
of different numbers differ. -/
def freshNumber (m : Module) : Nat := m.seekFresh m.nextFresh m.wires.size

/-- Adds an inner wire with a new name; the answer begins with that name. -/
def freshWire (m : Module) (width : Nat) : String × Module :=
  let n := m.freshNumber
  (freshName n,
    { m with wires := m.wires.insert (freshName n) { width }, nextFresh := n + 1 })

/-! ### Ports -/

/-- The ports with their names, in the order of their places; wires of one place keep the order in
which they were added. -/
def ports (m : Module) : List (String × Wire) :=
  (m.wires.entries.filter (·.2.isPort)).mergeSort fun a b => a.2.portId ≤ b.2.portId

/-- Numbers the ports from one on in the order in which their wires were added. Other wires lose
their place. -/
def numberPorts (m : Module) : Module :=
  let place (next : Nat) (w : Wire) : Wire × Nat :=
    if w.isPort then ({ w with portId := next }, next + 1) else ({ w with portId := 0 }, next)
  { m with wires := m.wires.mapScan place 1 }

/-! ### Cells and connections -/

def addCell (m : Module) (name : String) (cell : Cell) : Except Fault Module :=
  if m.cells.contains name then .error .duplicateCell
  else .ok { m with cells := m.cells.insert name cell }

/-- Drives the first signal from the second, which must be equally wide. -/
def connect (m : Module) (driven driving : Signal) : Except Fault Module :=
  if driven.length = driving.length then
    .ok { m with connections := m.connections ++ [(driven, driving)] }
  else .error .widthMismatch

/-! ### Attributes -/

/-- The attribute of a module that shows its ports alone. -/
def blackboxAttribute : String := "blackbox"

def setAttribute (m : Module) (name : String) (value : Param) : Module :=
  { m with attributes := m.attributes.insert name value }

def setBlackbox (m : Module) : Module := m.setAttribute blackboxAttribute (.ofInt 1)

def isBlackbox (m : Module) : Bool := m.attributes.contains blackboxAttribute

end Module

end CircuitLowering
