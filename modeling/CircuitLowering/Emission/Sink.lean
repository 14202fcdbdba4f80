import CircuitLowering.Emission.Writer

/-!
# Sinks

What a run writes goes somewhere: the statement of a node to the end of a text, its cell into a module,
a whole circuit to an output. Here a run goes together with such a sink, and each step changes the sink
where it is done with its part, so that a step that stops leaves the sink as it is at that point. The
actions of a run that give what they write as their answer are the same steps without a sink.

An output may take text or part of it and refuse the rest, which no step before can know.
-/

namespace CircuitLowering

/-- A run together with what it writes to. -/
structure Writing (σ : Type) where
  run : Run
  sink : σ

/-- Why writing stopped: the run failed, or the output refused text. -/
inductive Stop where
  | failed (f : Failure)
  | refused
deriving DecidableEq, Repr

/-- What became of a node. -/
inductive Emission where
  | emitted
  | skipped
deriving DecidableEq, Repr

abbrev Write (σ : Type) := EStateM Stop (Writing σ)

namespace Write

variable {σ α : Type}

/-- A step of the run. It does not look at the sink. -/
def step (x : Emit α) : Write σ α := fun s =>
  match x s.run with
  | .ok a r => .ok a { s with run := r }
  | .error f r => .error (.failed f) { s with run := r }

def fill (f : σ → σ) : Write σ Unit := modify fun s => { s with sink := f s.sink }

/-! ### Nodes -/

/-- Appends the statement of a node to a text. -/
def appendStatement (c : Context) (id : NodeId) : Write String Emission := do
  let n ← step (Emit.ask (·.node id))
  if n.kind.isPrimitive then
    step (Emit.instantiate id c.config.traversalMark)
    let p ← step (Emit.assemble id)
    let text ← step (Emit.demand (Blif.statement n p c.config.emitParams))
    fill (· ++ text)
    step (Emit.countEmitted c n)
    return .emitted
  else
    step (Emit.skip n)
    return .skipped

/-- Adds the cell of a node to a module. The wires that the cell needs come before it. -/
def addCell (c : Context) (d : Design) (id : NodeId) : Write Module Emission := do
  let n ← step (Emit.ask (·.node id))
  if n.kind.isPrimitive then
    step (Emit.instantiate id c.config.traversalMark)
    let p ← step (Emit.assemble id)
    let (cell, m) ← step (Emit.demand (Cell.ofPrimitive (← get).sink d n p))
    fill fun _ => m
    let m ← step (Emit.demand (m.addCell p.name cell))
    fill fun _ => m
    step (Emit.countEmitted c n)
    return .emitted
  else
    step (Emit.skip n)
    return .skipped

/-! ### Circuits -/

/-- An output: what it is after some text, and whether it took all of it. -/
abbrev Output (σ : Type) := σ → String → σ × Bool

def pour (out : Output σ) (text : String) : Write σ Unit := fun s =>
  match out s.sink text with
  | (sink, true) => .ok () { s with sink }
  | (sink, false) => .error .refused { s with sink }

/-- Writes the circuit in BLIF to an output, once there is the whole text. -/
def putBlif (out : Output σ) (c : Context) : Write σ Unit := do
  pour out (← step (Emit.writeBlif c))

/-- Writes the circuit as a design, once there is the whole design. -/
def putRtlil (out : Output σ) (c : Context) : Write σ Unit := do
  let d ← step (Emit.buildDesign c)
  pour out (← step (Emit.demand (Rtlil.text d)))

def putJson (out : Output σ) (c : Context) : Write σ Unit := do
  let d ← step (Emit.buildDesign c)
  pour out (← step (Emit.demand (Export.text d)))

end Write

end CircuitLowering
