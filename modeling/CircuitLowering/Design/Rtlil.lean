import CircuitLowering.Design.Basic
import CircuitLowering.Text.Lines
import CircuitLowering.Text.Quoted

/-!
# Designs as RTLIL text

Each object of a design is a line or a block of lines. Names are escaped by a leading backslash. In
a signal, neighbouring constants and ascending neighbouring bits of one wire are written as one
part; parts stand in braces, the most significant part first.

Positions are counted in 64 bits, so a signal that reaches past the last position has no written
form; see `isWritable`.

RTLIL is one of the two forms of a design (specification, section 11, item 5).
-/

namespace CircuitLowering.Rtlil

/-! ### Names and constants -/

/-- The written form of a name. Names that begin with a dollar sign or a backslash stand for
themselves. -/
def identifier (name : String) : String :=
  if name.startsWith "$" || name.startsWith "\\" then name else "\\" ++ name

def sized (bits : List Bit) : String := toString bits.length ++ "'" ++ Bits.render bits

/-- The written form of a value: 32 defined bits are an integer in two's complement, other bits are
written one by one, and a text is quoted. -/
def constant : Param → String
  | .bits b =>
    if b.length = 32 then
      match Bits.toInt? b with
      | some value => toString value
      | none => sized b
    else sized b
  | .text t => Text.Quoted.encode t

/-! ### Signals -/

/-- A part of a signal that is written in one piece. -/
inductive Part where
  | const (bits : List Bit)
  | slice (name : String) (offset width : Nat)
deriving DecidableEq, Repr

def Part.ofBit : SignalBit → Part
  | .const b => .const [b]
  | .wire name offset => .slice name offset 1

/-- The part with one more bit below it, if that makes one piece. -/
def Part.prepend? : SignalBit → Part → Option Part
  | .const b, .const bits => some (.const (b :: bits))
  | .wire name offset, .slice name' offset' width =>
    if name = name' ∧ offset + 1 = offset' then some (.slice name offset (width + 1)) else none
  | _, _ => none

/-- The parts of a signal, least significant part first. -/
def parts : Signal → List Part
  | [] => []
  | bit :: rest =>
    match parts rest with
    | [] => [.ofBit bit]
    | part :: others =>
      match part.prepend? bit with
      | some longer => longer :: others
      | none => .ofBit bit :: part :: others

/-- The written form of a part in a module: a whole wire is written by its name alone. -/
def part (m : Module) : Part → String
  | .const bits => sized bits
  | .slice name offset width =>
    if offset = 0 ∧ (m.wires.get? name).map (·.width) = some width then identifier name
    else if width = 1 then identifier name ++ " [" ++ toString offset ++ "]"
    else
      identifier name ++ " [" ++ toString (offset + width - 1) ++ ":" ++ toString offset ++ "]"

def signal (m : Module) (s : Signal) : String :=
  match parts s with
  | [] => "\x7b \x7d"
  | [single] => part m single
  | several => "\x7b " ++ String.intercalate " " (several.reverse.map (part m)) ++ " \x7d"

def lastOffset : Nat := UInt64.size - 1

/-- Whether two neighbouring bits can be written: a slice must not be followed past the last
position nor, being longer than one bit, end there. -/
def isWritablePair : SignalBit → SignalBit → Bool
  | .wire name offset, .wire name' offset' =>
    name ≠ name' || (offset ≠ lastOffset && !(offset' == lastOffset && offset + 1 == lastOffset))
  | _, _ => true

def isWritable : Signal → Bool
  | a :: b :: rest => isWritablePair a b && isWritable (b :: rest)
  | _ => true

/-! ### Modules and designs -/

def attributeLines (indent : String) (attributes : Ordered Param) : List String :=
  attributes.entries.map fun (name, value) =>
    indent ++ "attribute " ++ identifier name ++ " " ++ constant value

def wireLines (name : String) (w : Wire) : List String :=
  let place := match w.direction with
    | none => ""
    | some .input => " input " ++ toString w.portId
    | some .output => " output " ++ toString w.portId
  let width := if w.width = 1 then "" else " width " ++ toString w.width
  attributeLines "  " w.attributes ++ ["  wire" ++ width ++ place ++ " " ++ identifier name]

def cellLines (m : Module) (name : String) (c : Cell) : List String :=
  attributeLines "  " c.attributes
    ++ ["  cell " ++ identifier c.type ++ " " ++ identifier name]
    ++ c.params.entries.map (fun (name, value) =>
      "    parameter " ++ identifier name ++ " " ++ constant value)
    ++ c.ports.entries.map (fun (port, binding) =>
      "    connect " ++ identifier port ++ " " ++ signal m binding.signal)
    ++ ["  end"]

def moduleLines (name : String) (m : Module) : List String :=
  attributeLines "" m.attributes
    ++ ["module " ++ identifier name]
    ++ m.wires.entries.flatMap (fun (name, w) => wireLines name w)
    ++ m.cells.entries.flatMap (fun (name, c) => cellLines m name c)
    ++ m.connections.map (fun (driven, driving) =>
      "  connect " ++ signal m driven ++ " " ++ signal m driving)
    ++ ["end"]

def signals (m : Module) : List Signal :=
  m.cells.values.flatMap (fun c => c.ports.values.map (·.signal))
    ++ m.connections.flatMap fun (driven, driving) => [driven, driving]

/-- The lines of a design. The top module has an attribute that says so. -/
def designLines (d : Design) : List String :=
  d.modules.entries.flatMap fun (name, m) =>
    (if d.top = some name then ["attribute \\top 1"] else []) ++ moduleLines name m

def moduleText (name : String) (m : Module) : Except Fault String :=
  if (signals m).all isWritable then .ok (Text.lines (moduleLines name m)) else .error .overflow

def text (d : Design) : Except Fault String :=
  if d.modules.values.all fun m => (signals m).all isWritable then .ok (Text.lines (designLines d))
  else .error .overflow

end CircuitLowering.Rtlil
