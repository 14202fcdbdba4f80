/-!
# Events

What the library tells about its work while it does it. Each event has a level, a message and
named fields, all values written as text.

What is told at which level is in section 10.2 of the specification.
-/

namespace CircuitLowering

/-- How much an event matters, most important first. -/
inductive Level where
  | warn
  | info
  | debug
  | trace
deriving DecidableEq, Repr

namespace Level

def name : Level → String
  | warn => "warn"
  | info => "info"
  | debug => "debug"
  | trace => "trace"

def rank : Level → Nat
  | warn => 0
  | info => 1
  | debug => 2
  | trace => 3

def ofName? (name : String) : Option Level := [warn, info, debug, trace].find? (·.name = name)

end Level

/-- Something worth telling. -/
inductive Event where
  /-- A model was registered again, and its ports replaced. -/
  | modelOverridden (model : String)
  /-- A size was to be set on a port that the model does not have. -/
  | portNotResized (model port : String)
  | nodeLoaded (node : String)
  /-- A hard block names a model that the circuit does not declare. -/
  | unlistedModel (node model : String)
  | contextReady (models : Nat) (top : String)
  | blifStarted (top : String) (nodes : Nat)
  | designStarted (top : String) (nodes : Nat)
  | primitiveAssembled (node kind : String)
  /-- An input without driver was tied to ground. -/
  | inputTied (node pin : String)
  /-- A node was left to the arithmetic path. -/
  | arithmeticSkipped (node : String)
  /-- A hard block was written whose model is unknown. -/
  | modelMissing (node model : String)
  /-- A port of a hard block is not as its model declares it. -/
  | portDiffers (node model port found declared : String)
  /-- A model that never gets a blackbox was passed over. -/
  | reservedSkipped (model : String)
  | blackboxDeclared (model : String)
  | busBuilt (module bus : String) (width : Nat)
  | wireWidened (wire : String) (old new : Nat)
  | emissionFinished (emitted skipped repaired : Nat)
deriving DecidableEq, Repr

namespace Event

def level : Event → Level
  | inputTied .. => .warn
  | blifStarted .. | designStarted .. | emissionFinished .. => .info
  | nodeLoaded _ | primitiveAssembled .. | busBuilt .. => .trace
  | modelOverridden _ | portNotResized .. | unlistedModel .. | contextReady ..
  | arithmeticSkipped _ | modelMissing .. | portDiffers .. | reservedSkipped _
  | blackboxDeclared _ | wireWidened .. => .debug

/-- The message, without the fields. -/
def message : Event → String
  | modelOverridden _ => "overriding hard block model"
  | portNotResized .. => "no such port to resize"
  | nodeLoaded _ => "loading node"
  | unlistedModel .. => "instantiated model is not in the catalog"
  | contextReady .. => "emit context ready"
  | blifStarted .. => "writing BLIF"
  | designStarted .. => "building design graph"
  | primitiveAssembled .. => "assembling primitive"
  | inputTied .. => "undriven input tied to ground"
  | arithmeticSkipped _ => "arithmetic node left to its own path"
  | modelMissing .. => "model is not in the catalog"
  | portDiffers .. => "port differs from the model declaration"
  | reservedSkipped _ => "skipping reserved model"
  | blackboxDeclared _ => "declared blackbox module"
  | busBuilt .. => "materializing bus"
  | wireWidened .. => "widening wire"
  | emissionFinished .. => "emission finished"

def fields : Event → List (String × String)
  | modelOverridden model => [("model", model)]
  | portNotResized model port => [("model", model), ("port", port)]
  | nodeLoaded node => [("node", node)]
  | unlistedModel node model => [("node", node), ("model", model)]
  | contextReady models top => [("models", toString models), ("top", top)]
  | blifStarted top nodes => [("top", top), ("nodes", toString nodes)]
  | designStarted top nodes => [("top", top), ("nodes", toString nodes)]
  | primitiveAssembled node kind => [("node", node), ("kind", kind)]
  | inputTied node pin => [("node", node), ("pin", pin)]
  | arithmeticSkipped node => [("node", node)]
  | modelMissing node model => [("node", node), ("model", model)]
  | portDiffers node model port found declared =>
    [("node", node), ("model", model), ("port", port), ("found", found), ("declared", declared)]
  | reservedSkipped model => [("model", model)]
  | blackboxDeclared model => [("model", model)]
  | busBuilt module bus width => [("module", module), ("bus", bus), ("width", toString width)]
  | wireWidened wire old new => [("wire", wire), ("from", toString old), ("to", toString new)]
  | emissionFinished emitted skipped repaired =>
    [("emitted", toString emitted), ("skipped", toString skipped),
      ("repaired", toString repaired)]

end Event

end CircuitLowering
