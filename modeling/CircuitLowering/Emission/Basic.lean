import CircuitLowering.Event
import CircuitLowering.Netlist.Slots

/-!
# Emission runs

Writing a circuit names its outputs, repairs its undriven inputs, keeps a report and tells events.
A step of it is an `Emit` action: it changes a `Run` and may stop with a `Failure`, and what it
changed before it stopped stays changed.

What is repaired and what is fatal is in section 7 of the specification, the report in section 11, item 9.
-/

namespace CircuitLowering

/-- An input that had no driver and was tied to ground. -/
structure Diagnostic where
  node : String
  pin : String
deriving DecidableEq, Repr

def Diagnostic.message (d : Diagnostic) : String :=
  "node `" ++ d.node ++ "`: input pin `" ++ d.pin ++ "` has no driver, tied to ground"

/-- The summary of a run. -/
structure Report where
  /-- The repaired inputs in the order of their repair. -/
  diagnostics : List Diagnostic := []
  /-- The number of primitives written. -/
  emitted : Nat := 0
  /-- The number of nodes that are no primitives. -/
  skipped : Nat := 0
  /-- The models of the hard blocks written, each once. -/
  referencedModels : List String := []
  blackboxes : List String := []
deriving DecidableEq, Repr

def Report.reference (r : Report) (model : String) : Report :=
  if model ∈ r.referencedModels then r
  else { r with referencedModels := r.referencedModels ++ [model] }

/-- What a run changes. -/
structure Run where
  netlist : Netlist
  report : Report := {}
  log : Array Event := #[]

/-- The models and settings of a run, which stay as they are. -/
structure Context where
  catalog : Catalog := {}
  config : Config := {}

namespace Context

/-- Sets a run up: the memory models get the sizes that the settings ask for. -/
def new (catalog : Catalog) (config : Config) : Context :=
  { catalog := catalog.applyMemorySizes config, config }

def newEvents (catalog : Catalog) (config : Config) : List Event :=
  catalog.memorySizeEvents config ++ [.contextReady catalog.models.length config.topModule]

end Context

abbrev Emit := EStateM Failure Run

namespace Emit

variable {α : Type}

def tell (e : Event) : Emit Unit := modify fun r => { r with log := r.log.push e }

def tellAll (es : List Event) : Emit Unit := modify fun r => { r with log := r.log ++ es }

/-- Stops with an error of the circuit. -/
def fail (e : EmitError) : Emit α := throw (.error e)

/-- Takes a result, or stops at a broken promise. -/
def demand : Except Fault α → Emit α
  | .ok a => pure a
  | .error f => throw (.fault f)

def ask (query : Netlist → Except Fault α) : Emit α := do demand (query (← get).netlist)

def modifyNetlist (f : Netlist → Netlist) : Emit Unit :=
  modify fun r => { r with netlist := f r.netlist }

def modifyReport (f : Report → Report) : Emit Unit :=
  modify fun r => { r with report := f r.report }

/-- Stops unless an invariant holds. -/
def require (i : Invariant) (holds : Bool) : Emit Unit := unless holds do throw (.violated i)

end Emit

end CircuitLowering
