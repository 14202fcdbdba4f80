import CircuitLowering.Blif.Cover
import CircuitLowering.Catalog.Basic
import CircuitLowering.Emission.Primitive
import CircuitLowering.Text.Lines
import CircuitLowering.Text.Quoted

/-!
# BLIF statements

The statements of primitives and the declarations of blackbox models. Every statement ends with an
empty line. A truth table is a `.names` block, a register a `.latch` line, and everything else a
`.subckt` line with its parameters below it.

The grammar is in section 6 of the specification; section 11 adds registers and parameters (items 2 to 4).
-/

namespace CircuitLowering.Blif

open Text (lines words)

/-- The line of a parameter: bits as a bit string, text in quotes. -/
def paramLine (name : String) : Param → String
  | .bits b => ".param " ++ name ++ " " ++ Bits.render b
  | .text t => ".param " ++ name ++ " " ++ Text.Quoted.encode t

def namesBlock (inputs : List String) (output : String) (rows : List String) : List String :=
  words (".names" :: inputs ++ [output]) :: rows

/-- The line that binds the ports of an instance, inputs before outputs. -/
def subcktLine (p : Primitive) : String :=
  words (".subckt" :: p.cellType
    :: p.inputs.map (fun b => b.port ++ "=" ++ b.driver.name)
    ++ p.outputs.map (fun b => b.port ++ "=" ++ b.name))

def latchLine (data output : String) (edge : ClockEdge) (clock : String) (init : InitValue) :
    String :=
  words [".latch", data, output, edge.keyword, clock, toString init.code]

/-- The lines of a primitive. Inputs of a lookup table are listed from the last to the first, so
that the first place of a row is the most significant input. -/
def primitiveLines (n : Node) (p : Primitive) (showParams : Bool) : Except Fault (List String) :=
  match n.kind with
  | .lut width mask =>
    (lutRowsChecked width mask).map (namesBlock p.inputNames.reverse p.outputName)
  | .sop width depth table =>
    (sopRowsChecked width depth table).map (namesBlock p.inputNames p.outputName)
  | .register edge init =>
    match p.inputNames with
    | data :: clock :: _ => .ok [latchLine data p.outputName edge clock init]
    | _ => .error .missingPin
  | .reduceOr | .reduceAnd =>
    .ok [
      subcktLine p,
      paramLine "A_WIDTH" (.ofCount n.firstInputSize),
      paramLine "Y_WIDTH" (.ofCount n.firstOutputSize),
      ".param A_SIGNED 0"]
  | _ =>
    .ok (subcktLine p ::
      if showParams then n.params.entries.map fun (name, value) => paramLine name value else [])

def statement (n : Node) (p : Primitive) (showParams : Bool) : Except Fault String :=
  (primitiveLines n p showParams).map fun ls => lines (ls ++ [""])

def bitNames (ports : List ModelPort) : List String := ports.flatMap ModelPort.bitNames

/-- The declaration of a model by its ports alone. -/
def blackbox (m : Model) : String :=
  lines [
    words [".model", m.name],
    words (".inputs" :: bitNames m.inputs),
    words (".outputs" :: bitNames m.outputs),
    ".blackbox",
    ".end",
    ""]

def declaration (m : Model) : Except Fault String :=
  if m.portsFit then .ok (blackbox m) else .error .overflow

end CircuitLowering.Blif
