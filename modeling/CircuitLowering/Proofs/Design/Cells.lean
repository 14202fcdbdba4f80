import CircuitLowering.Design.Instance
import CircuitLowering.Proofs.Design.Wires

/-!
# Parts of cells

What the pieces contribute of which cells are made: the bits of drivers, parameters that are set one
after the other, and ports that are bound one after the other.  Ports with distinct names stand in the
cell in the order in which they are bound (`Cell.entries_ports_bindAll`).
-/

namespace CircuitLowering

/-! ### Bits of drivers -/

def Driver.bit (d : Driver) : SignalBit :=
  match d.constant with
  | some value => .const value
  | none => .wire d.name 0

theorem Module.driverBit_fst (m : Module) (d : Driver) : (m.driverBit d).1 = d.bit := by
  unfold driverBit Driver.bit
  cases d.constant <;> rfl

theorem Module.driverBits_fst (m : Module) (ds : List Driver) :
    (m.driverBits ds).1 = ds.map Driver.bit := by
  induction ds generalizing m with
  | nil => rfl
  | cons d ds ih =>
    change (m.driverBit d).1 :: ((m.driverBit d).2.driverBits ds).1 = _
    rw [m.driverBit_fst, ih, List.map_cons]

theorem Module.names_subset_driverBits (m : Module) (ds : List Driver) :
    m.wires.names ⊆ (m.driverBits ds).2.wires.names := by
  induction ds generalizing m with
  | nil => exact List.Subset.refl _
  | cons d ds ih =>
    have hbit : m.wires.names ⊆ (m.driverBit d).2.wires.names := by
      unfold Module.driverBit
      cases d.constant with
      | some value => exact List.Subset.refl _
      | none => exact m.names_subset_addWire d.name 1
    exact List.Subset.trans hbit (ih _)

theorem Module.names_subset_outputBits (m : Module) (outputs : List OutputBinding) :
    m.wires.names ⊆ (m.outputBits outputs).2.wires.names := by
  unfold Module.outputBits
  induction outputs generalizing m with
  | nil => exact List.Subset.refl _
  | cons output outputs ih => exact List.Subset.trans (m.names_subset_addWire output.name 1) (ih _)

/-! ### Parameters -/

namespace Cell

theorem type_setParams (c : Cell) (params : List (String × Param)) :
    (c.setParams params).type = c.type := by
  induction params generalizing c with
  | nil => rfl
  | cons param params ih => exact ih (c.setParam param.1 param.2)

theorem ports_setParams (c : Cell) (params : List (String × Param)) :
    (c.setParams params).ports = c.ports := by
  induction params generalizing c with
  | nil => rfl
  | cons param params ih => exact ih (c.setParam param.1 param.2)

/-- Parameters that are not set again keep their values. -/
theorem get?_params_setParams (c : Cell) {name : String} {params : List (String × Param)}
    (h : params.lookup name = none) :
    (c.setParams params).params.get? name = c.params.get? name := by
  induction params generalizing c with
  | nil => rfl
  | cons param params ih =>
    obtain ⟨key, value⟩ := param
    rw [List.lookup_cons] at h
    split at h
    · cases h
    · next hkey =>
      have hne : name ≠ key := by simpa using hkey
      exact (ih (c.setParam key value) h).trans (c.params.get?_insert_of_ne hne value)

/-! ### Bound ports -/

def bindAll (c : Cell) (bindings : List (String × Connection)) : Cell :=
  bindings.foldl (fun c binding => c.bind binding.1 binding.2.signal binding.2.direction) c

theorem bindAll_append (c : Cell) (bindings bindings' : List (String × Connection)) :
    c.bindAll (bindings ++ bindings') = (c.bindAll bindings).bindAll bindings' := by
  rw [bindAll, List.foldl_append]
  rfl

theorem bindBuses_eq_bindAll (c : Cell) (direction : Direction) (buses : List (String × Signal)) :
    c.bindBuses direction buses =
      c.bindAll (buses.map fun (base, signal) => (base, ⟨signal, direction⟩)) := by
  rw [bindAll, List.foldl_map]
  rfl

/-- Ports with distinct names are bound in the order in which they come. -/
theorem entries_ports_bindAll {c : Cell} {bindings : List (String × Connection)}
    (hnodup : (bindings.map Prod.fst).Nodup)
    (hnew : ∀ binding ∈ bindings, binding.1 ∉ c.ports.names) :
    (c.bindAll bindings).ports.entries = c.ports.entries ++ bindings := by
  have hports (c : Cell) : (c.bindAll bindings).ports =
      bindings.foldl (fun ports binding => ports.insert binding.1 binding.2) c.ports := by
    clear hnodup hnew
    induction bindings generalizing c with
    | nil => rfl
    | cons binding bindings ih => exact ih _
  rw [hports]
  exact Ordered.entries_foldl_insert hnodup hnew

end Cell

/-! ### Cells of primitives -/

/-- The wires that the bits of a signal belong to, each as often as it stands there. -/
def Signal.wireNames (s : Signal) : List String :=
  s.filterMap fun
    | .const _ => none
    | .wire name _ => some name

theorem Signal.wireNames_append (s t : Signal) : Signal.wireNames (s ++ t) = s.wireNames ++ t.wireNames :=
  List.filterMap_append

theorem Signal.wireNames_cons (bit : SignalBit) (s : Signal) :
    Signal.wireNames (bit :: s) = Signal.wireNames [bit] ++ s.wireNames :=
  wireNames_append [bit] s

namespace Primitive

def inputSignal (p : Primitive) : Signal := p.inputs.map (·.driver.bit)

def outputSignal (p : Primitive) : Signal := p.outputs.map fun output => .wire output.name 0

def inputBindings (p : Primitive) : List (String × SignalBit) := p.inputs.map fun b => (b.port, b.driver.bit)

def outputBindings (p : Primitive) : List (String × SignalBit) := p.outputs.map fun b => (b.port, .wire b.name 0)

def wireNames (p : Primitive) : List String := p.inputSignal.wireNames ++ p.outputSignal.wireNames

end Primitive

namespace Module

def addWires (m : Module) (names : List String) : Module := names.foldl (fun m name => m.addWire name 1) m

theorem names_subset_addWires (m : Module) (names : List String) :
    m.wires.names ⊆ (m.addWires names).wires.names := by
  induction names generalizing m with
  | nil => exact List.Subset.refl _
  | cons name names ih => exact List.Subset.trans (m.names_subset_addWire name 1) (ih _)

theorem subset_addWires (m : Module) (names : List String) : names ⊆ (m.addWires names).wires.names := by
  induction names generalizing m with
  | nil => exact List.nil_subset _
  | cons name names ih =>
    exact List.cons_subset.mpr ⟨names_subset_addWires _ names (m.mem_names_addWire name 1), ih _⟩

/-- The wire of a driver is added, unless it is a constant. -/
theorem driverBit_snd (m : Module) (d : Driver) :
    (m.driverBit d).2 = m.addWires (Signal.wireNames [d.bit]) := by
  unfold driverBit Driver.bit
  cases d.constant <;> rfl

theorem driverBits_snd (m : Module) (ds : List Driver) :
    (m.driverBits ds).2 = m.addWires (Signal.wireNames (ds.map Driver.bit)) := by
  induction ds generalizing m with
  | nil => rfl
  | cons d ds ih =>
    rw [List.map_cons, Signal.wireNames_cons, addWires, List.foldl_append]
    exact (ih _).trans (congrArg (addWires · _) (m.driverBit_snd d))

theorem outputBits_snd (m : Module) (p : Primitive) :
    (m.outputBits p.outputs).2 = m.addWires p.outputSignal.wireNames := by
  rw [outputBits, addWires, Primitive.outputSignal, Signal.wireNames, List.filterMap_map,
    Function.comp_def, List.filterMap_eq_map', List.foldl_map]

end Module

/-- A cell is that of its kind, made after the wires of the pins, with the parameters of the node put over
it. -/
theorem Cell.ofPrimitive_eq (m : Module) (d : Design) (n : Node) (p : Primitive) :
    ofPrimitive m d n p =
      (fun result => (result.1.setParams n.params.entries, result.2)) <$>
        ofKind (m.addWires p.wireNames) d n p p.inputSignal p.outputSignal := by
  have hinputs : (m.driverBits (p.inputs.map (·.driver))).1 = p.inputSignal := by
    rw [m.driverBits_fst, List.map_map]
    rfl
  have hmodule : ((m.driverBits (p.inputs.map (·.driver))).2.outputBits p.outputs).2 =
      m.addWires p.wireNames := by
    rw [Module.outputBits_snd, Module.driverBits_snd, List.map_map, Primitive.wireNames,
      Module.addWires, Module.addWires, Module.addWires, List.foldl_append]
    rfl
  rw [← hinputs, ← hmodule]
  exact bind_pure_comp _ _

end CircuitLowering
