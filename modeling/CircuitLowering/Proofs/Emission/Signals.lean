import CircuitLowering.Proofs.Circuit.Signals
import CircuitLowering.Proofs.Emission.Regular
import CircuitLowering.Proofs.Emission.Verdict

/-!
# Names of drivers

The driver of a pin is known by its name alone in everything that is written, so two nets whose drivers
had one name would be joined.  Naming the outputs gives names to those that have none, and such an output
drives a net that nothing reads; the others keep the names that they have from their nets
(`Netlist.Signals`).  So pins on different nets are never resolved to one name
(`resolve_names_apart`).
-/

namespace CircuitLowering

open Netlist

namespace Netlist

/-! ### Named outputs -/

section Named

variable {nl : Netlist} {id : PinId} {p : Pin} {name : String}

theorem pins_nameSlot_of_named (hp : nl.pins[id]? = some p) (hname : p.name = some name)
    (node : String) (slot : Slot) : (nl.nameSlot node slot).pins[id]? = some p := by
  rw [getElem?_pins_nameSlot, hp]
  split
  · rw [Option.map_some, hname, Option.getD_some, ← hname]
  · rfl

theorem pins_instantiate_of_named (hp : nl.pins[id]? = some p) (hname : p.name = some name)
    (k : NodeId) (mark : UInt16) : (nl.instantiate k mark).pins[id]? = some p := by
  have hslots (node : String) (slots : List Slot) {nl : Netlist} (hp : nl.pins[id]? = some p) :
      (slots.foldl (nameSlot node) nl).pins[id]? = some p := by
    induction slots generalizing nl with
    | nil => exact hp
    | cons slot slots ih => exact ih (pins_nameSlot_of_named hp hname node slot)
  unfold instantiate
  split
  · exact hp
  · next n _ => exact hslots n.name n.outputSlots hp

/-- A pin that has a name keeps it. -/
theorem pins_instantiateAll_of_named (hp : nl.pins[id]? = some p) (hname : p.name = some name)
    (mark : UInt16) : (nl.instantiateAll mark).pins[id]? = some p := by
  unfold instantiateAll
  generalize nl.primitiveIds = ids
  induction ids generalizing nl with
  | nil => exact hp
  | cons k ids ih => exact ih (pins_instantiate_of_named hp hname k mark)

theorem driverAt_name (hp : nl.pins[id]? = some p) (hname : p.name = some name) (padded : Bool) :
    (nl.driverAt id padded).name = name := by
  have hdriver : nl.driverName id = .ok name := by
    refine bind_eq_ok_iff.mpr ⟨p, pin_eq_ok_iff.mpr hp, ?_⟩
    rw [hname]
    rfl
  rw [driverAt, hdriver]
  rfl

end Named

end Netlist

/-! ### Driven pins -/

namespace Emit

variable {r : Run}

/-- An action that has an answer passes it on. -/
theorem bind_eq_of_ok {α β : Type} {x : Emit α} {f : α → Emit β} {a : α} {s : Run}
    (hx : x r = .ok a s) : (x >>= f) r = f a s := by
  change EStateM.bind x f r = _
  rw [EStateM.bind, hx]

/-- A pin on a net with one driver is resolved to that driver, and nothing changes. -/
theorem resolve_eq_driverAt (hnl : r.netlist.CrossReferenced) {id : PinId} {p : Pin} {w : NetId}
    {driver : PinId} (hp : r.netlist.pins[id]? = some p) (hw : p.net = some w)
    (hdriver : r.netlist.drivers w = [driver]) :
    resolve id r = .ok (r.netlist.driverAt driver false) r := by
  obtain ⟨n, hn⟩ := hnl.node_of_pin hp
  obtain ⟨net, hnet⟩ : ∃ net, r.netlist.nets[w]? = some net :=
    ⟨_, Array.getElem?_eq_getElem (hnl.net_of_pin hp hw)⟩
  have hdrivers : net.drivers = [driver] := by
    rw [← hdriver, drivers, pinsOfNet, hnet]
    rfl
  obtain ⟨q, hq⟩ := hnl.pin_of_driver (hdriver ▸ List.mem_singleton_self driver)
  obtain ⟨name, hname⟩ := hnl.exists_driverName hq
  obtain ⟨owner, howner⟩ := hnl.node_of_pin hq
  have hquery : (do r.netlist.node (← r.netlist.pin driver).node) = .ok owner :=
    bind_eq_ok_iff.mpr ⟨q, pin_eq_ok_iff.mpr hq, node_eq_ok_iff.mpr howner⟩
  have hlive : liveNet? p r = .ok (some w) r := by
    rw [liveNet?, hw]
    refine (bind_eq_of_ok (ask_eq_ok (net_eq_ok_iff.mpr hnet))).trans ?_
    rw [hdrivers]
    rfl
  have hat : driverAt driver false r = .ok (r.netlist.driverAt driver false) r := by
    refine (bind_eq_of_ok (ask_eq_ok hname)).trans ((bind_eq_of_ok (ask_eq_ok hquery)).trans ?_)
    rw [Netlist.driverAt, hname, hq, Option.bind_some, howner]
    rfl
  unfold resolve
  refine (bind_eq_of_ok (ask_eq_ok (pin_eq_ok_iff.mpr hp))).trans ?_
  refine (bind_eq_of_ok (ask_eq_ok (node_eq_ok_iff.mpr hn))).trans ?_
  refine (bind_eq_of_ok hlive).trans ?_
  change soleDriver id n.name w false r = _
  refine (bind_eq_of_ok (ask_eq_ok (net_eq_ok_iff.mpr hnet))).trans ?_
  rw [hdrivers]
  exact hat

end Emit

/-- In a circuit that was read from a description, and whose open net has not lost its name to an input,
two input pins on different nets with one driver each are resolved to drivers of different names once
the outputs are named.  It does not matter what the nodes are that drive the nets, nor how outputs
without a name, their ports and their nodes are called. -/
theorem resolve_names_apart {d : CircuitDescription} {circuit : Circuit}
    (hbuild : d.build = .ok circuit) (hpad : padName ∉ d.inputs) {mark : UInt16} {r : Run}
    (hr : r.netlist = circuit.netlist.instantiateAll mark) {id id' : PinId} {p p' : Pin}
    (hp : circuit.netlist.pins[id]? = some p) (hp' : circuit.netlist.pins[id']? = some p')
    (hinput : p.direction = .input) (hinput' : p'.direction = .input) {w w' : NetId}
    (hw : p.net = some w) (hw' : p'.net = some w') (hne : w ≠ w') {driver driver' : PinId}
    (hdriver : circuit.netlist.drivers w = [driver])
    (hdriver' : circuit.netlist.drivers w' = [driver']) :
    ∃ a a' : Driver, Emit.resolve id r = .ok a r ∧ Emit.resolve id' r = .ok a' r ∧
      a.name ≠ a'.name := by
  have hcross := (CircuitDescription.sound_build hbuild).1.toCrossReferenced
  have hsignals := CircuitDescription.signals_of_build hpad hbuild
  have hgraph := circuit.netlist.graph_instantiateAll mark
  have hcross' : r.netlist.CrossReferenced := hr ▸ hcross.of_graph hgraph
  -- the driver of a net that is read bears the name of the net
  have hresolve {id : PinId} {p : Pin} {w : NetId} {driver : PinId}
      (hp : circuit.netlist.pins[id]? = some p) (hinput : p.direction = .input)
      (hw : p.net = some w) (hdriver : circuit.netlist.drivers w = [driver]) :
      ∃ a : Driver, Emit.resolve id r = .ok a r ∧
        circuit.netlist.netName? w = some (some a.name) := by
    obtain ⟨name, hname⟩ := hsignals.named id p w hp hinput hw
    have hmem : driver ∈ circuit.netlist.drivers w := hdriver ▸ List.mem_singleton_self driver
    obtain ⟨q, hq, hqnet, houtput⟩ := (hcross.mem_pinsOfNet .output).mp hmem
    have hqname : q.name = some name := by
      simpa [hname] using (hsignals.driven driver q w hq houtput hqnet).symm
    have hq' := pins_instantiateAll_of_named hq hqname mark
    have hp' := hcross.pins_instantiateAll hp hinput mark
    rw [← hr] at hq' hp'
    have hdrivers : r.netlist.drivers w = [driver] := by
      rw [hr, drivers_of_graph hgraph, hdriver]
    refine ⟨_, Emit.resolve_eq_driverAt hcross' hp' hw hdrivers, ?_⟩
    rw [driverAt_name hq' hqname, hname]
  obtain ⟨a, ha, hname⟩ := hresolve hp hinput hw hdriver
  obtain ⟨a', ha', hname'⟩ := hresolve hp' hinput' hw' hdriver'
  refine ⟨a, a', ha, ha', fun hsame => hne ?_⟩
  refine hsignals.apart id id' p p' w w' hp hp' hinput hinput' hw hw' ?_
  rw [hname, hname', hsame]

/-- A block with an output that has no name, and a gate that reads the block's other output and the open
net. -/
def partlyNamedDescription : CircuitDescription where
  inputs := ["a"]
  outputs := ["y"]
  nodes := [
    { name := "u"
      kind := .hardBlock "m"
      inputs := [{ mapping := "i", nets := [some "a"] }]
      outputs := [{ mapping := "o", nets := [none, some "n"] }] },
    { name := "v"
      kind := .reduceOr
      inputs := [{ mapping := "A", nets := [some "n", none] }]
      outputs := [{ mapping := "Y", nets := [some "y"] }] }]

def partlyNamedCircuit : Circuit := partlyNamedDescription.build.toOption.getD ⟨none, {}, {}⟩

theorem build_partlyNamedDescription : partlyNamedDescription.build = .ok partlyNamedCircuit :=
  eq_ok_getD (by decide +kernel) _

/-- The two pins of the gate. -/
theorem resolve_names_apart_partlyNamedCircuit :
    partlyNamedDescription.build = .ok partlyNamedCircuit ∧
      ∃ a a' : Driver,
        Emit.resolve 7 { netlist := partlyNamedCircuit.netlist.instantiateAll 1 }
          = .ok a { netlist := partlyNamedCircuit.netlist.instantiateAll 1 } ∧
        Emit.resolve 8 { netlist := partlyNamedCircuit.netlist.instantiateAll 1 }
          = .ok a' { netlist := partlyNamedCircuit.netlist.instantiateAll 1 } ∧ a.name ≠ a'.name := by
  have hr : Run.netlist { netlist := partlyNamedCircuit.netlist.instantiateAll 1 }
      = partlyNamedCircuit.netlist.instantiateAll 1 := by dsimp only
  have hn : partlyNamedCircuit.netlist.pins[7]?
      = some { mapping := "A", direction := .input, node := 5, net := some 5 } := by decide +kernel
  have hopen : partlyNamedCircuit.netlist.pins[8]?
      = some { mapping := "A", direction := .input, node := 5, net := some padNet } := by
    decide +kernel
  have hdriver : partlyNamedCircuit.netlist.drivers 5 = [6] := by decide +kernel
  have hdriver' : partlyNamedCircuit.netlist.drivers padNet = [2] := by decide +kernel
  exact ⟨build_partlyNamedDescription, resolve_names_apart build_partlyNamedDescription (by decide) hr
    hn hopen rfl rfl rfl rfl (by decide) hdriver hdriver'⟩

end CircuitLowering
