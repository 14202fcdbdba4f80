import CircuitLowering.Proofs.Circuit.Connections
import CircuitLowering.Proofs.Circuit.Violations

/-!
# What the names of the constant nets denote

The three constant nets have names, and these are names of signals like others: an input of the circuit
that has one of them takes it over.  `CircuitDescription.denotes_of_build` says of each pin of a node and
of each output of the circuit what it is connected to when it is given such a name.  That is the constant
net where no input has the name, and otherwise the net of an input; and only there can the pin be one that
drives its net.

So `gnd` is not always zero (`zero_takenCircuit`).
-/

namespace CircuitLowering

open Netlist

namespace Builder

variable {d : CircuitDescription} {b : Builder}

/-- Whether each name of an input denotes the net of an input of that name. Of inputs with one name it is
the last. -/
def Owned (names : List String) (b : Builder) : Prop :=
  ∀ name ∈ names, ∃ i pin, names[i]? = some name ∧
    b.netlist.pinsOfNode (3 + i) .output = [pin] ∧ b.Assigned (3 + i) name .output pin (some name)

theorem Owned.addInput {names : List String} (hb : Started names b) (howned : b.Owned names)
    (name : String) : (b.addInput name).Owned (names ++ [name]) := by
  intro other hother
  by_cases hsame : other = name
  · subst hsame
    refine ⟨names.length, b.netlist.pins.size, List.getElem?_concat_length, ?_⟩
    rw [← hb.size]
    exact hb.labelled.assigned_addInput other
  · have hold : other ∈ names := by simpa [hsame] using hother
    obtain ⟨i, pin, hi, hpins, hassigned⟩ := howned other hold
    have hlt : i < names.length := (List.getElem?_eq_some_iff.mp hi).1
    have hnode : 3 + i < b.netlist.nodes.size := by
      rw [hb.size]
      exact Nat.add_lt_add_left hlt 3
    exact ⟨i, pin, (List.getElem?_append_left hlt).trans hi,
      (pinsOfNode_addInput hb.labelled name hnode _).trans hpins,
      hassigned.addInput hb.labelled hsame⟩

theorem Owned.addInputs {done : List String} (hb : Started done b) (howned : b.Owned done)
    (names : List String) : (names.foldl Builder.addInput b).Owned (done ++ names) := by
  induction names generalizing done b with
  | nil =>
    rw [List.append_nil]
    exact howned
  | cons name names ih =>
    rw [List.append_cons]
    exact ih (hb.addInput name) (howned.addInput hb name)

theorem owned_start (d : CircuitDescription) : (start d).Owned d.inputs := by
  unfold start
  generalize d.models.foldl declareModel {} = catalog
  have hnetlist : (Builder.mk catalog initial constantNets []).netlist = initial := by dsimp only
  exact Owned.addInputs (started_first hnetlist rfl) (fun _ h => nomatch h) d.inputs

/-- A pin that was given the net of a name is on it. -/
theorem Assigned.netAt? {node : NodeId} {label name : String} {side : Direction} {id : PinId}
    {place : Place} (hid : d.pinAt? b.netlist place = some id)
    (h : b.Assigned node label side id (some name)) :
    d.netAt? b.netlist place = b.nets.lookup name := by
  obtain ⟨w, hp, hw⟩ := h
  rw [CircuitDescription.netAt?, hid, Option.bind_some, netOf?, hp, Option.bind_some, hw]

end Builder

theorem Netlist.lookup_constantNets {w : NetId} {name : String} (hw : constantNames[w]? = some name) :
    Builder.constantNets.lookup name = some w := by
  have hlt : w < constantNames.length := (List.getElem?_eq_some_iff.mp hw).1
  have hall : ∀ w < 3, (constantNames[w]?).bind (Builder.constantNets.lookup ·) = some w := by decide
  have hfound := hall w hlt
  rwa [hw, Option.bind_some] at hfound

namespace CircuitDescription

/-- What a place is connected to that is given the name of a constant net `w`. -/
structure Denotes (d : CircuitDescription) (nl : Netlist) (w : NetId) (name : String) (place : Place) :
    Prop where
  /-- The constant net, where the name is left to it. -/
  left : name ∉ d.inputs → d.netAt? nl place = some w
  /-- The net of an input, where one has the name. That is no constant net. -/
  taken : name ∈ d.inputs → ∃ i net, d.inputs[i]? = some name ∧ 3 ≤ net ∧
    d.netAt? nl place = some net ∧ d.netAt? nl (.topInput i) = some net
  /-- No constant net is driven. -/
  driven : place.direction = .output → name ∈ d.inputs

/-- A node may drive the name of a constant net only where an input has taken it. -/
theorem WellFormed.mem_inputs_of_driven {d : CircuitDescription} (hd : d.WellFormed) {w : NetId}
    {name : String} (hw : constantNames[w]? = some name) {place : Place} {label : String}
    (hplace : d.bindingAt? place = some (label, some name)) (hinput : ∀ i, place ≠ .topInput i)
    (hdirection : place.direction = .output) : name ∈ d.inputs := by
  cases place with
  | topInput i => exact absurd rfl (hinput i)
  | node side k p i =>
    cases hdirection
    obtain ⟨decl, hk, hplace⟩ := Option.bind_eq_some_iff.mp hplace
    obtain ⟨port, hp, hplace⟩ := Option.bind_eq_some_iff.mp hplace
    obtain ⟨name?, hi, hbinding⟩ := Option.map_eq_some_iff.mp hplace
    cases hbinding
    exact hd.outputs decl (List.mem_of_getElem? hk) port (List.mem_of_getElem? hp) name
      (List.mem_of_getElem? hi) (List.mem_of_getElem? hw)
  | topOutput i => cases hdirection

/-- The name of a constant net denotes it at each pin of a node and each output of the circuit, unless an
input of the circuit has the name; then it denotes the net of such an input. -/
theorem denotes_of_build {d : CircuitDescription} {circuit : Circuit} (h : d.build = .ok circuit)
    {w : NetId} {name : String} (hw : constantNames[w]? = some name) {place : Place} {label : String}
    (hplace : d.bindingAt? place = some (label, some name)) (hinput : ∀ i, place ≠ .topInput i) :
    d.Denotes circuit.netlist w name place := by
  have hwell : d.WellFormed := by
    rw [wellFormed_iff]
    have hreports := d.reports_build
    rw [h] at hreports
    exact hreports
  obtain ⟨b, hnodes, h⟩ := bind_eq_ok_iff.mp h
  cases h
  have hstart := Builder.started_start d
  obtain ⟨hgrown, hlabelled, -⟩ := hstart.labelled.addNodes hnodes
  have hlookup : ∀ net, (Builder.start d).nets.lookup name = some net →
      (d.outputs.foldl Builder.addOutput b).nets.lookup name = some net :=
    fun net hnet => (hlabelled.addOutputs d.outputs).grown.lookup name net
      (hgrown.lookup name net hnet)
  obtain ⟨-, -, hplaces⟩ := Builder.holds_of_starts hnodes
  generalize d.outputs.foldl Builder.addOutput b = final at hlookup hplaces
  obtain ⟨id, hid, hassigned⟩ := hplaces place label _ hplace fun i hi => absurd hi (hinput i)
  have hnet := hassigned.netAt? hid
  refine ⟨?_, ?_, ?_⟩
  · intro hfree
    rw [hnet]
    exact hlookup w ((hstart.kept name hfree).trans (lookup_constantNets hw))
  · intro htaken
    obtain ⟨net, hle, hdenoted⟩ := hstart.taken name htaken
    obtain ⟨i, pin, hi, hpin⟩ := Builder.owned_start d name htaken
    have htop : d.bindingAt? (.topInput i) = some (name, some name) := by
      rw [bindingAt?, hi, Option.map_some]
    obtain ⟨id', hid', hassigned'⟩ := hplaces (.topInput i) name _ htop fun j hj => by
      cases hj
      exact ⟨pin, hpin⟩
    exact ⟨i, net, hi, hle, hnet.trans (hlookup net hdenoted),
      (hassigned'.netAt? hid').trans (hlookup net hdenoted)⟩
  · exact hwell.mem_inputs_of_driven hw hplace hinput

end CircuitDescription

/-! ### A circuit with an input called as the zero net -/

/-- A gate that reads an input called as the net that is always zero, and the net that is always one. It
drives the net of the input, too. -/
def takenDescription : CircuitDescription where
  inputs := ["gnd"]
  outputs := ["gnd"]
  nodes := [
    { name := "u"
      kind := .reduceOr
      inputs := [{ mapping := "A", nets := [some "gnd", some "vcc"] }]
      outputs := [{ mapping := "Y", nets := [some "gnd"] }] }]

def takenCircuit : Circuit := takenDescription.build.toOption.getD ⟨none, {}, {}⟩

theorem build_takenDescription : takenDescription.build = .ok takenCircuit :=
  eq_ok_getD (by decide +kernel) _

/-- The one name has stayed with its constant net and the other has not. -/
theorem denotes_takenCircuit :
    takenDescription.build = .ok takenCircuit ∧
      takenDescription.netAt? takenCircuit.netlist (.node .input 0 0 1) = some powerNet ∧
      takenDescription.netAt? takenCircuit.netlist (.node .output 0 0 0) =
        takenDescription.netAt? takenCircuit.netlist (.topInput 0) := by
  have hpower : takenDescription.Denotes takenCircuit.netlist powerNet powerName
      (.node .input 0 0 1) :=
    CircuitDescription.denotes_of_build build_takenDescription rfl rfl nofun
  have hzero : takenDescription.Denotes takenCircuit.netlist groundNet groundName
      (.node .output 0 0 0) :=
    CircuitDescription.denotes_of_build build_takenDescription rfl rfl nofun
  refine ⟨build_takenDescription, hpower.left (by decide), ?_⟩
  obtain ⟨i, net, hi, -, hnet, htop⟩ := hzero.taken (by decide)
  have hfirst : i = 0 := by
    have hlt : i < 1 := (List.getElem?_eq_some_iff.mp hi).1
    omega
  subst hfirst
  exact hnet.trans htop.symm

/-- A pin that is given the name of the net that is always zero need not read it, and an output that is
given this name may be accepted. -/
theorem zero_takenCircuit :
    takenDescription.build = .ok takenCircuit ∧
      takenDescription.bindingAt? (.node .input 0 0 0) = some ("A", some groundName) ∧
      takenDescription.netAt? takenCircuit.netlist (.node .input 0 0 0) ≠ some groundNet ∧
      takenDescription.bindingAt? (.topOutput 0) = some (groundName, some groundName) ∧
      takenDescription.netAt? takenCircuit.netlist (.topOutput 0) ≠ some groundNet ∧
      takenDescription.bindingAt? (.node .output 0 0 0) = some ("Y", some groundName) :=
  ⟨build_takenDescription, by decide +kernel⟩

end CircuitLowering
