import CircuitLowering.Design.Module
import CircuitLowering.Text.Subscript

/-!
# Buses

Signals are single bits until a bus is put together again from names of the form `base[index]`.

`Buses` does this for the ports of a module: `observe` collects names, and `materialize` adds one
wide port for each base and joins the single wires to its bits. `CellBuses` does it for the ports of
a cell, whose bits are already signals. In both, a base is as wide as its highest index asks, gaps
included.

This is the bus reconstructor of the specification (section 4.3); how wide the buses of cells are is in
section 11, item 6.
-/

namespace CircuitLowering

open Text

/-- Adds one to an index; indices are counted in 64 bits. -/
def indexSuccessor (index : Nat) : Except Fault Nat :=
  if index + 1 < Subscript.indexLimit then .ok (index + 1) else .error .overflow

/-! ### Buses as ports of a module -/

/-- What is known of a bus. -/
structure Bus where
  /-- One more than the highest index seen. -/
  width : Nat
  /-- The direction of the bit seen last. -/
  direction : Direction
deriving DecidableEq, Repr

/-- The buses seen so far, in the order of their first bits. -/
abbrev Buses := Ordered Bus

namespace Buses

/-- Takes in bit `index` of `base`: the bus becomes wide enough and has the direction of the bit. -/
def accumulate (bs : Buses) (base : String) (index : Nat) (direction : Direction) :
    Except Fault Buses := do
  let width ← indexSuccessor index
  let known := ((bs.get? base).map (·.width)).getD 0
  return bs.insert base { width := max known width, direction }

/-- Takes in a name if it is that of a bit of a bus. -/
def observe (bs : Buses) (name : String) (direction : Direction) : Except Fault Buses :=
  match Subscript.split? name with
  | some (base, index) => bs.accumulate base index direction
  | none => .ok bs

/-- Joins bit `index` of the bus `base` to the wire of its name, if there is one; that wire is no
port any longer. The one that is inside is driven: the wire from an input, the bus bit for an
output. -/
def joinBit (base : String) (direction : Direction) (m : Module) (index : Nat) :
    Except Fault Module :=
  let name := Subscript.join base index
  match m.wires.get? name with
  | none => .ok m
  | some w => do
    let single ← Signal.ofWireChecked name w.width
    let busBit : Signal := [.wire base index]
    let m := m.setDirection name none
    match direction with
    | .input => m.connect single busBit
    | .output => m.connect busBit single

/-- Adds the port of a bus and joins its bits. -/
def materializeBus (m : Module) (base : String) (bus : Bus) : Except Fault Module :=
  (List.range bus.width).foldlM (joinBit base bus.direction)
    (m.addPort base bus.width bus.direction)

def busEvents (moduleName : String) (m : Module) (base : String) (bus : Bus) : List Event :=
  .busBuilt moduleName base bus.width :: m.addWireEvents base bus.width

def materialize (bs : Buses) (m : Module) : Except Fault Module :=
  bs.entries.foldlM (fun m (base, bus) => materializeBus m base bus) m

/-- What adding the ports of buses tells, up to the first that fails. -/
def eventsFrom (moduleName : String) (m : Module) : List (String × Bus) → List Event
  | [] => []
  | (base, bus) :: rest =>
    busEvents moduleName m base bus ++
      match materializeBus m base bus with
      | .ok m => eventsFrom moduleName m rest
      | .error _ => []

def events (bs : Buses) (moduleName : String) (m : Module) : List Event :=
  eventsFrom moduleName m bs.entries

end Buses

/-! ### Buses as ports of a cell -/

/-- The bits of each bus by index, in the order of their first bits; of the bits at one index the
last one stands in front and counts. -/
abbrev CellBuses := Ordered (List (Nat × SignalBit))

namespace CellBuses

/-- Takes in the bit that a port is bound to, if the port is a bit of a bus. -/
def take? (bs : CellBuses) (port : String) (bit : SignalBit) : Option CellBuses :=
  (Subscript.split? port).map fun (base, index) =>
    bs.insert base ((index, bit) :: (bs.get? base).getD [])

/-- One more than the highest index of a bus. -/
def observedWidth (bits : List (Nat × SignalBit)) : Except Fault Nat :=
  if bits.isEmpty then .ok 0 else indexSuccessor ((bits.map Prod.fst).foldl max 0)

/-- The bits of a bus from `index` on, `count` of them. An index without a bit gets a fresh wire. -/
def fill (bits : List (Nat × SignalBit)) (m : Module) (index : Nat) : Nat → Signal × Module
  | 0 => ([], m)
  | count + 1 =>
    match bits.lookup index with
    | some bit =>
      let (rest, m) := fill bits m (index + 1) count
      (bit :: rest, m)
    | none =>
      let (name, m) := m.freshWire 1
      let (rest, m) := fill bits m (index + 1) count
      (.wire name 0 :: rest, m)

/-- The signals of buses, each at least as wide as `calleeWidth?` says of its base. -/
def materializeFrom (m : Module) (calleeWidth? : String → Option Nat) :
    List (String × List (Nat × SignalBit)) → Except Fault (List (String × Signal) × Module)
  | [] => .ok ([], m)
  | (base, bits) :: rest => do
    let width := max (← observedWidth bits) ((calleeWidth? base).getD 0)
    Capacity.ensure Capacity.signalBitBytes width
    let (signal, m) := fill bits m 0 width
    let (signals, m) ← materializeFrom m calleeWidth? rest
    return ((base, signal) :: signals, m)

/-- The signals of all buses, in their order. -/
def materialize (bs : CellBuses) (m : Module) (calleeWidth? : String → Option Nat) :
    Except Fault (List (String × Signal) × Module) :=
  materializeFrom m calleeWidth? bs.entries

end CellBuses

end CircuitLowering
