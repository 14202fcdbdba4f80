import CircuitLowering.Design.Basic
import CircuitLowering.Design.Labels
import CircuitLowering.Json.Printer

/-!
# Designs as JSON netlists

For each module its attributes, ports, cells and net names, with every bit written as its label.

This is the other form of a design beside RTLIL (specification, section 11, item 5).
-/

namespace CircuitLowering.Export

def creator : String := "netlower 0.1.0"

/-- A label: a number, or a constant as a text of one letter. -/
def label : Label → Json
  | .const value => .text value.toChar.toString
  | .net number => .nat number

def direction : Direction → Json
  | .input => .text "input"
  | .output => .text "output"

/-- One for names that are not meant for readers, zero for others. -/
def hideName (name : String) : Json := .nat (if name.startsWith "$" then 1 else 0)

def looksLikeBits (text : String) : Bool :=
  text ≠ "" && text.toList.all fun c => c = '0' || c = '1' || c = 'x' || c = 'z'

/-- The written form of a value: bits as a bit string, text as it is, with a space at the end if it
could be taken for bits. -/
def paramText : Param → String
  | .bits b => Bits.render b
  | .text t => if looksLikeBits t then t ++ " " else t

def params (values : Ordered Param) : Json :=
  .record (values.map fun value => .text (paramText value)).entries

def bits (labels : List Label) : Json := .array (labels.map label)

/-- Shows something under its name. -/
def named {α β : Type} (f : String → α → Labelling β) (entry : String × α) : Labelling (String × β) :=
  return (entry.1, ← f entry.1 entry.2)

/-- What is shown of a wire. -/
structure Net where
  labels : List Label
  attributes : Ordered Param

def Net.ofWire (name : String) (w : Wire) : Labelling Net :=
  return { labels := ← Labels.signal (← Signal.ofWireChecked name w.width), attributes := w.attributes }

/-- A wire: its bits and attributes. -/
def net (name : String) (n : Net) : Json :=
  .record [
    ("hide_name", hideName name),
    ("bits", bits n.labels),
    ("attributes", params n.attributes)]

/-- A port: its direction, and the bits of its wire as they are shown there. -/
def port (nets : List (String × Net)) (name : String) (w : Wire) : Labelling Json :=
  match nets.lookup name with
  | some n =>
    return .record [
      ("direction", direction (w.direction.getD .output)),
      ("bits", bits n.labels)]
  | none => throw .unknownWire

def binding (_port : String) (b : Connection) : Labelling Json := return bits (← Labels.signal b.signal)

/-- A cell: its type, values and bound ports. -/
def cell (name : String) (c : Cell) : Labelling Json := do
  let connections ← c.ports.entries.mapM (named binding)
  return .record [
    ("hide_name", hideName name),
    ("type", .text c.type),
    ("parameters", params c.params),
    ("attributes", params c.attributes),
    ("port_directions", .record (c.ports.map fun binding => direction binding.direction).entries),
    ("connections", .record connections)]

def topAttribute : String := "top"

/-- A module, which has an attribute that says so if it is the top module. Labels are asked for by
its wires first and then by its cells. -/
def labelled (isTop : Bool) (m : Module) : Labelling Json := do
  let attributes :=
    if isTop then m.attributes.insert topAttribute (.bits [.one]) else m.attributes
  let nets ← m.wires.entries.mapM (named Net.ofWire)
  let ports ← m.ports.mapM (named (port nets))
  let cells ← m.cells.entries.mapM (named cell)
  return .record [
    ("attributes", params attributes),
    ("ports", .record ports),
    ("cells", .record cells),
    ("netnames", .record (nets.map fun (name, n) => (name, net name n)))]

def module (isTop : Bool) (m : Module) : Except Fault Json := do
  (labelled isTop m).run' (← Labels.ofModule m)

def design (d : Design) : Except Fault Json := do
  let modules ← d.modules.entries.mapM fun (name, m) =>
    return (name, ← module (d.top = some name) m)
  return .record [("creator", .text creator), ("modules", .record modules)]

def text (d : Design) : Except Fault String := return (← design d).pretty

end CircuitLowering.Export
