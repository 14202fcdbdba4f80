import CircuitLowering.Catalog.Basic
import CircuitLowering.Ordered

/-!
# Catalogs with an index

A catalog in the form in which it is kept: the models with an index that maps each name to the place
of its model, so that no model is searched for.
-/

namespace CircuitLowering.Catalog

/-- A catalog that is kept with the places of its names. -/
structure Indexed where
  models : List Model := []
  index : Ordered Nat := .empty

namespace Indexed

def find? (x : Indexed) (name : String) : Option Model :=
  (x.index.get? name).bind fun i => x.models[i]?

def change (x : Indexed) (i : Nat) (f : Model → Model) : Indexed :=
  { x with models := x.models.modify i f }

/-- Registers a model and tells its place. -/
def register (x : Indexed) (name : String) (inputs outputs : List ModelPort) : Nat × Indexed :=
  match x.index.get? name with
  | some i => (i, x.change i ({ · with inputs, outputs }))
  | none =>
    (x.models.length,
      { models := x.models ++ [{ name, inputs, outputs }]
        index := x.index.insert name x.models.length })

/-- Marks a model as used and tells whether there is one. -/
def markUsed (x : Indexed) (name : String) : Bool × Indexed :=
  match x.index.get? name with
  | some i => (true, x.change i ({ · with used := true }))
  | none => (false, x)

/-- Sets the size of a port and tells whether there is one. -/
def setPortSize (x : Indexed) (model port : String) (size : Nat) : Bool × Indexed :=
  match x.index.get? model with
  | some i => ((x.models[i]?.bind (·.port? port)).isSome, x.change i (·.resize port size))
  | none => (false, x)

def applyMemorySizes (x : Indexed) (config : Config) : Indexed :=
  (memorySizes config).foldl (fun x (model, port, size) => (x.setPortSize model port size).2) x

end Indexed

end CircuitLowering.Catalog
