import CircuitLowering.Blif.Statement
import CircuitLowering.Circuit.Build
import CircuitLowering.Design.Blackbox
import CircuitLowering.Design.Export
import CircuitLowering.Design.Instance
import CircuitLowering.Design.Rtlil

/-!
# Writing circuits

The steps that write one node or one blackbox, and the three writers of whole circuits made of them:
`writeBlif`, `writeRtlil` and `writeJson`. A writer answers with the complete text or stops, so a
failed run leaves no partial text.

These are the whole-design writers of the specification (section 11, item 5).
-/

namespace CircuitLowering

namespace Emit

/-! ### What nodes and models have in common -/

/-- Names the outputs of a node that must exist and sets its mark. -/
def instantiate (id : NodeId) (mark : UInt16) : Emit Unit := do
  discard <| ask (·.node id)
  modifyNetlist (·.instantiate id mark)

/-- Counts a node that is not written. -/
def skip (n : Node) : Emit Unit := do
  if n.kind.isArithmetic then tell (.arithmeticSkipped n.name)
  modifyReport fun r => { r with skipped := r.skipped + 1 }

/-- Compares a hard block with its model, tells what differs and notes the model as referenced. -/
def reference (c : Context) (n : Node) : Emit Unit :=
  match n.kind with
  | .hardBlock model => do
    match c.catalog.find? model with
    | none => tell (.modelMissing n.name model)
    | some declared =>
      tellAll (((← get).netlist.mismatches declared n).map fun m =>
        .portDiffers n.name model m.port m.displayFound m.displayDeclared)
    modifyReport (·.reference model)
  | _ => return

def countEmitted (c : Context) (n : Node) : Emit Unit := do
  reference c n
  modifyReport fun r => { r with emitted := r.emitted + 1 }

def resolveOutput (output : Node) : Emit Driver :=
  match output.inputs with
  | pin :: _ => resolve pin
  | [] => throw (.fault .missingPin)

def names (ids : List NodeId) : Emit (List String) :=
  ids.mapM fun id => return (← ask (·.node id)).name

/-! ### BLIF -/

/-- The statement of a node, or none if it is no primitive. -/
def emitBlif (c : Context) (id : NodeId) : Emit (Option String) := do
  let n ← ask (·.node id)
  if n.kind.isPrimitive then
    instantiate id c.config.traversalMark
    let p ← assemble id
    let text ← demand (Blif.statement n p c.config.emitParams)
    countEmitted c n
    return some text
  else
    skip n
    return none

/-- The statements of nodes, appended to `text`. -/
def emitBlifAll (c : Context) (text : String) : List NodeId → Emit String
  | [] => return text
  | id :: rest => do
    let statement ← emitBlif c id
    emitBlifAll c (text ++ statement.getD "") rest

/-- The buffers of outputs whose driver has another name, appended to `text`. -/
def emitBuffers (text : String) : List NodeId → Emit String
  | [] => return text
  | id :: rest => do
    let output ← ask (·.node id)
    let driver ← resolveOutput output
    let buffer :=
      if driver.name = output.name then ""
      else Text.lines [Text.words [".names", driver.name, output.name], "1 1", ""]
    emitBuffers (text ++ buffer) rest

/-- Blackbox declarations in BLIF. -/
structure Declarations where
  text : String := ""
  /-- The names that are taken. -/
  declared : List String
  /-- The name that ended the declarations because it was taken, if there was one. -/
  clash : Option String := none
deriving DecidableEq, Repr

/-- Declares the models to be declared among `models`, up to the first whose name is taken. -/
def declareBlif (referenced : List String) (ds : Declarations) : List Model → Emit Declarations
  | [] => return ds
  | m :: rest => do
    tellAll (Catalog.reservedEvents referenced m)
    if Catalog.isWanted referenced m && !Catalog.isReserved m then
      if m.name ∈ ds.declared then return { ds with clash := some m.name }
      let declaration ← demand (Blif.declaration m)
      modifyReport fun r => { r with blackboxes := r.blackboxes ++ [m.name] }
      let ds : Declarations :=
        { text := ds.text ++ declaration, declared := m.name :: ds.declared }
      declareBlif referenced ds rest
    else declareBlif referenced ds rest

/-- Declares the models that the run needs. -/
def emitBlackboxes (c : Context) (declared : List String) : Emit Declarations := do
  declareBlif (← get).report.referencedModels { declared } c.catalog.models

/-- The circuit in BLIF: the top model, then the blackbox models. -/
def writeBlif (c : Context) : Emit String := do
  modifyNetlist (·.instantiateAll c.config.traversalMark)
  let top := c.config.topModule
  let netlist := (← get).netlist
  tell (.blifStarted top netlist.nodes.size)
  let body ← emitBlifAll c "" (List.range netlist.nodes.size)
  let buffers ← emitBuffers "" netlist.topOutputs
  let inputs ← names netlist.topInputs
  let outputs ← names netlist.topOutputs
  let header := Text.lines [
    ".model " ++ top,
    ".inputs " ++ Text.words inputs,
    ".outputs " ++ Text.words outputs,
    "",
    ".names " ++ Netlist.groundName,
    ".names " ++ Netlist.powerName,
    "1",
    ".names " ++ Netlist.padName,
    ""]
  let ds ← emitBlackboxes c [top]
  if let some name := ds.clash then fail (.duplicateModule name)
  return header ++ body ++ buffers ++ Text.lines [".end", ""] ++ ds.text

/-! ### Designs -/

/-- The module with the cell of a node, or none if the node is no primitive. -/
def emitCell (c : Context) (d : Design) (m : Module) (id : NodeId) : Emit (Option Module) := do
  let n ← ask (·.node id)
  if n.kind.isPrimitive then
    instantiate id c.config.traversalMark
    let p ← assemble id
    let (cell, m) ← demand (Cell.ofPrimitive m d n p)
    let m ← demand (m.addCell p.name cell)
    countEmitted c n
    return some m
  else
    skip n
    return none

def emitCells (c : Context) (d : Design) (m : Module) : List NodeId → Emit Module
  | [] => return m
  | id :: rest => do
    let extended ← emitCell c d m id
    emitCells c d (extended.getD m) rest

/-- The module with its outputs joined to their drivers. -/
def joinOutputs (m : Module) : List NodeId → Emit Module
  | [] => return m
  | id :: rest => do
    let output ← ask (·.node id)
    let driver ← resolveOutput output
    let (bit, m) := m.driverBit driver
    let m ←
      if bit = .wire output.name 0 then pure m
      else demand (m.connect (Signal.ofWire output.name 1) [bit])
    joinOutputs m rest

/-- Adds the blackbox modules of the models to be declared among `models`, up to the first whose
name is taken; the answer has that name, if there is one. -/
def declareModules (referenced : List String) (d : Design) :
    List Model → Emit (Design × Option String)
  | [] => return (d, none)
  | m :: rest => do
    tellAll (Catalog.reservedEvents referenced m)
    if Catalog.isWanted referenced m && !Catalog.isReserved m then
      if d.modules.contains m.name then return (d, some m.name)
      tellAll m.blackboxEvents
      let module ← demand m.blackbox
      modifyReport fun r => { r with blackboxes := r.blackboxes ++ [m.name] }
      declareModules referenced { d with modules := d.modules.insert m.name module } rest
    else declareModules referenced d rest

/-- Adds the blackbox modules that the run needs. -/
def addBlackboxes (c : Context) (d : Design) : Emit (Design × Option String) := do
  declareModules (← get).report.referencedModels d c.catalog.models

/-- The design with a module added under a name that is not taken. -/
def insertModule (d : Design) (name : String) (m : Module) : Emit Design :=
  match d.addModule name m with
  | .ok d => return d
  | .error e => fail e

def addBoundary (direction : Direction) (m : Module) (names : List String) : Module :=
  names.foldl (fun m name => m.addPort name 1 direction) m

/-- The models that hard blocks of the netlist name, each once, in the order of the nodes. -/
def hardBlockModels (nl : Netlist) : List String :=
  (nl.nodes.toList.filterMap fun n => match n.kind with
    | .hardBlock model => some model
    | _ => none).foldl (fun seen model => if model ∈ seen then seen else seen ++ [model]) []

/-- The circuit as a design: the blackbox modules, then the top module. -/
def buildDesign (c : Context) : Emit Design := do
  modifyNetlist (·.instantiateAll c.config.traversalMark)
  let top := c.config.topModule
  let netlist := (← get).netlist
  tell (.designStarted top netlist.nodes.size)
  modifyReport fun r => (hardBlockModels netlist).foldl (fun r model => r.reference model) r
  let (d, clash) ← addBlackboxes c {}
  if let some name := clash then fail (.duplicateModule name)
  let m := addBoundary .input {} (← names netlist.topInputs)
  let m := addBoundary .output m (← names netlist.topOutputs)
  let m ← emitCells c d m (List.range netlist.nodes.size)
  let m ← joinOutputs m netlist.topOutputs
  let d ← insertModule d top m.numberPorts
  return { d with top := some top }

def writeRtlil (c : Context) : Emit String := do demand (Rtlil.text (← buildDesign c))

def writeJson (c : Context) : Emit String := do demand (Export.text (← buildDesign c))

/-- Ends a run; the answer is its report. -/
def teardown : Emit Report := do
  let report := (← get).report
  tell (.emissionFinished report.emitted report.skipped report.diagnostics.length)
  return report

end Emit

end CircuitLowering
