import CircuitLowering.Circuit.Description
import CircuitLowering.Config
import CircuitLowering.Json.Codec

/-!
# Circuit descriptions as JSON

The form in which descriptions are kept in files, type by type from the ports of models up to the
whole circuit, and that of parameter values and configurations.
-/

namespace CircuitLowering

open Json (Cases Codec Shape)

/-! ### Models -/

def PortDeclaration.shape : Shape PortDeclaration :=
  .record (.field "name" .text none <| .field "size" .uint64 none .done)
    (fun p => (p.name, p.size, ()))
    (fun (name, size, ()) => { name, size })
    (fun _ => rfl)

/-- Only the name is needed. -/
def ModelDeclaration.shape : Shape ModelDeclaration :=
  .record
    (.field "name" .text none <|
      .field "inputs" (.list PortDeclaration.shape) (some []) <|
      .field "outputs" (.list PortDeclaration.shape) (some []) <|
      .field "used" .bool false .done)
    (fun m => (m.name, m.inputs, m.outputs, m.used, ()))
    (fun (name, inputs, outputs, used, ()) => { name, inputs, outputs, used })
    (fun _ => rfl)

/-! ### Kinds -/

def ClockEdge.shape : Shape ClockEdge :=
  .name [("rising", .rising), ("falling", .falling)] ClockEdge.name
    (by rintro (_ | _) <;> rfl)

def InitValue.shape : Shape InitValue :=
  .name [("zero", .zero), ("one", .one), ("unknown", .unknown)] InitValue.name
    (by rintro (_ | _ | _) <;> rfl)

namespace KindDeclaration

/-- The parts of a kind, one alternative for each kind. -/
abbrev Parts : Type :=
  (UInt64 × String × Unit) ⊕ (UInt64 × UInt64 × String × Unit) ⊕ (String × Unit) ⊕ (String × Unit) ⊕
    Unit ⊕ Unit ⊕ (ClockEdge × InitValue × Unit) ⊕ Unit ⊕ Unit ⊕ Empty

def cases : Cases Parts :=
  .case "lut" (.field "width" .uint64 none <| .field "mask" .text none .done) <|
  .case "sop"
    (.field "width" .uint64 none <| .field "depth" .uint64 none <| .field "table" .text none .done) <|
  .case "hard_block" (.field "model" .text none .done) <|
  .case "skip_block" (.field "model" .text none .done) <|
  .empty "reduce_or" <|
  .empty "reduce_and" <|
  .case "register"
    (.field "edge" ClockEdge.shape (some .rising) <| .field "init" InitValue.shape (some .zero) .done) <|
  .empty "adder" <|
  .empty "multiplier" .done

def parts : KindDeclaration → Parts
  | lut width mask => .inl (width, mask, ())
  | sop width depth table => .inr (.inl (width, depth, table, ()))
  | hardBlock model => .inr (.inr (.inl (model, ())))
  | skipBlock model => .inr (.inr (.inr (.inl (model, ()))))
  | reduceOr => .inr (.inr (.inr (.inr (.inl ()))))
  | reduceAnd => .inr (.inr (.inr (.inr (.inr (.inl ())))))
  | register edge init => .inr (.inr (.inr (.inr (.inr (.inr (.inl (edge, init, ())))))))
  | adder => .inr (.inr (.inr (.inr (.inr (.inr (.inr (.inl ())))))))
  | multiplier => .inr (.inr (.inr (.inr (.inr (.inr (.inr (.inr (.inl ()))))))))

def ofParts : Parts → KindDeclaration
  | .inl (width, mask, ()) => lut width mask
  | .inr (.inl (width, depth, table, ())) => sop width depth table
  | .inr (.inr (.inl (model, ()))) => hardBlock model
  | .inr (.inr (.inr (.inl (model, ())))) => skipBlock model
  | .inr (.inr (.inr (.inr (.inl ())))) => reduceOr
  | .inr (.inr (.inr (.inr (.inr (.inl ()))))) => reduceAnd
  | .inr (.inr (.inr (.inr (.inr (.inr (.inl (edge, init, ()))))))) => register edge init
  | .inr (.inr (.inr (.inr (.inr (.inr (.inr (.inl ()))))))) => adder
  | .inr (.inr (.inr (.inr (.inr (.inr (.inr (.inr (.inl ())))))))) => multiplier

theorem ofParts_parts (k : KindDeclaration) : ofParts k.parts = k := by
  cases k <;> rfl

/-- The kinds where they may nest `limit` deep. -/
def shape (limit : Nat) : Shape KindDeclaration := .tagged "type" limit cases parts ofParts ofParts_parts

end KindDeclaration

/-! ### Nodes -/

def ParamDeclaration.shape : Shape ParamDeclaration :=
  .variant (.case "bits" .text <| .case "int" .int32 <| .case "text" .text .done)
    (fun
      | .bits letters => .inl letters
      | .int value => .inr (.inl value)
      | .text value => .inr (.inr (.inl value)))
    (fun
      | .inl letters => .bits letters
      | .inr (.inl value) => .int value
      | .inr (.inr (.inl value)) => .text value)
    (by rintro (_ | _ | _) <;> rfl)

/-- The size may be left out. -/
def PortBinding.shape : Shape PortBinding :=
  .record
    (.field "mapping" .text none <|
      .field "size" (.optional .uint64) (some none) <|
      .field "nets" (.list (.optional .text)) none .done)
    (fun b => (b.mapping, b.size, b.nets, ()))
    (fun (mapping, size, nets, ()) => { mapping, size, nets })
    (fun _ => rfl)

/-- Name and kind are needed. A node stands in a list in a circuit. -/
def NodeDeclaration.shape : Shape NodeDeclaration :=
  .record
    (.field "name" .text none <|
      .field "kind" (KindDeclaration.shape (Json.depthLimit - 3)) none <|
      .field "inputs" (.list PortBinding.shape) (some []) <|
      .field "outputs" (.list PortBinding.shape) (some []) <|
      .field "params" (.table ParamDeclaration.shape) (some .empty) .done)
    (fun n => (n.name, n.kind, n.inputs, n.outputs, n.params, ()))
    (fun (name, kind, inputs, outputs, params, ()) => { name, kind, inputs, outputs, params })
    (fun _ => rfl)

/-! ### Circuits -/

namespace CircuitDescription

/-- Nothing is needed. -/
def shape : Shape CircuitDescription :=
  .record
    (.field "top" (.optional .text) (some none) <|
      .field "models" (.list ModelDeclaration.shape) (some []) <|
      .field "inputs" (.list .text) (some []) <|
      .field "outputs" (.list .text) (some []) <|
      .field "nodes" (.list NodeDeclaration.shape) (some []) .done)
    (fun d => (d.top, d.models, d.inputs, d.outputs, d.nodes, ()))
    (fun (top, models, inputs, outputs, nodes, ()) => { top, models, inputs, outputs, nodes })
    (fun _ => rfl)

def parseBytes (c : Codec) (bytes : List UInt8) : Except CircuitError CircuitDescription :=
  match c.parseBytes? shape bytes with
  | some d => .ok d
  | none => .error .malformedJson

def parse (c : Codec) (text : String) : Except CircuitError CircuitDescription :=
  parseBytes c text.toUTF8.toList

def render (c : Codec) (d : CircuitDescription) : String := c.render shape d

end CircuitDescription

/-! ### Parameter values and configurations -/

def Bit.shape : Shape Bit :=
  .name [("S0", .zero), ("S1", .one), ("Sx", .unknown), ("Sz", .floating)]
    (fun
      | .zero => "S0"
      | .one => "S1"
      | .unknown => "Sx"
      | .floating => "Sz")
    (by rintro (_ | _ | _ | _) <;> rfl)

namespace Param

def shape : Shape Param :=
  .variant (.case "Bits" (.list Bit.shape) <| .case "Text" .text .done)
    (fun
      | .bits vector => .inl vector
      | .text value => .inr (.inl value))
    (fun
      | .inl vector => .bits vector
      | .inr (.inl value) => .text value)
    (by rintro (_ | _) <;> rfl)

def parse (c : Codec) (text : String) : Except CircuitError Param :=
  match c.parseBytes? shape text.toUTF8.toList with
  | some p => .ok p
  | none => .error .malformedJson

def render (c : Codec) (p : Param) : String := c.render shape p

end Param

namespace Config

def parse (c : Codec) (text : String) : Except CircuitError Config :=
  match c.parseBytes? shape text.toUTF8.toList with
  | some config => .ok config
  | none => .error .malformedJson

def render (c : Codec) (config : Config) : String := c.render shape config

end Config

end CircuitLowering
