import CircuitLowering.Proofs.Blif.Texts
import CircuitLowering.Proofs.Circuit.Kinds
import CircuitLowering.Proofs.Emission.Bindings
import CircuitLowering.Proofs.Emission.Declared
import CircuitLowering.Proofs.Emission.Requests

/-!
# Formal names of instances

The line of an instance binds the pins of a hard block under names that follow from the labels and sizes
of the ports of the block, and the declaration of its model lists names that follow from the names and
sizes of the ports of the model.  The two are made apart from each other, and comparing the block with its
model looks at the first pin of each port only.  Where it finds no difference, each port of the block that
has pins is a port of the model, of the same direction and size, and its names stand in the line of the
declaration for its side (`formals_of_matching`).

A port without pins has no first pin, so it is not compared, and a block may lack all bits of a port of
its model unnoticed (`formals_missing_hollowCircuit`).
-/

namespace CircuitLowering

open Netlist

/-! ### Ports -/

def Model.portsOn (m : Model) : Direction → List ModelPort
  | .input => m.inputs
  | .output => m.outputs

/-- Whether the ports of a model have the directions of the sides that list them. -/
def Model.WellDirected (m : Model) : Prop := ∀ side, ∀ port ∈ m.portsOn side, port.direction = side

def PortBinding.modelPort (side : Direction) (port : PortBinding) : ModelPort where
  name := port.mapping
  size := port.nets.length
  direction := side

/-- The names under which a port binds its pins are those of the bits of a port of a model. -/
theorem NodePort.map_fst_bindings (port : NodePort) (side : Direction) :
    port.bindings.map Prod.fst =
      ModelPort.bitNames { name := port.label, size := port.pins.length, direction := side } := by
  obtain ⟨label, pins⟩ := port
  have hnames (pins : List PinId) :
      (pins.zipIdx.map fun pin => (Text.Subscript.join label pin.2, pin.1)).map Prod.fst =
        (List.range pins.length).map (Text.Subscript.join label) := by
    rw [List.range_eq_range', ← List.zipIdx_map_snd, List.map_map, List.map_map]
    rfl
  rcases pins with _ | ⟨pin, _ | ⟨second, rest⟩⟩
  · rfl
  · rfl
  · refine (hnames (pin :: second :: rest)).trans ?_
    unfold ModelPort.bitNames
    rw [if_neg (by simp)]
    rfl

/-- The first port of a name is listed on the side of its direction. -/
theorem Model.mem_portsOn_of_port? {m : Model} (hm : m.WellDirected) {name : String} {port : ModelPort}
    (h : m.port? name = some port) : port ∈ m.portsOn port.direction := by
  rcases List.mem_append.mp (List.mem_of_find?_eq_some h) with hmem | hmem
  · exact (hm .input port hmem).symm ▸ hmem
  · exact (hm .output port hmem).symm ▸ hmem

/-- Sizes that are given to ports leave their directions. -/
theorem Model.wellDirected_sized {m : Model} (hm : m.WellDirected) (size? : String → Option Nat) :
    (m.sized size?).WellDirected := by
  have hside {seen : List String} {ports : List ModelPort} {side : Direction}
      (hports : ∀ port ∈ ports, port.direction = side) :
      ∀ port ∈ sizeFirsts size? seen ports, port.direction = side := by
    intro port hport
    have hpair := List.mem_map_of_mem (f := fun p : ModelPort => (p.name, p.direction)) hport
    rw [map_interface_sizeFirsts] at hpair
    obtain ⟨old, hold, hsame⟩ := List.mem_map.mp hpair
    rw [← (Prod.mk.inj hsame).2, hports old hold]
  intro side
  cases side with
  | input => exact hside (hm .input)
  | output => exact hside (hm .output)

/-- The models of a circuit that was read from a description are well directed. -/
theorem CircuitDescription.wellDirected_of_mem {d : CircuitDescription} {circuit : Circuit}
    (hbuild : d.build = .ok circuit) {config : Config} {m : Model}
    (hm : m ∈ (Context.new circuit.catalog config).catalog.models) : m.WellDirected := by
  rw [models_new hbuild, List.mem_map] at hm
  obtain ⟨m', hm', rfl⟩ := hm
  obtain ⟨-, last, -, -, -, -, hinputs, houtputs⟩ := ports_of_mem_interfaces hm'
  refine Model.wellDirected_sized ?_ _
  intro side port hport
  have hdeclared : ∃ decls : List PortDeclaration, port ∈ decls.map (PortDeclaration.modelPort side) := by
    cases side with
    | input => exact ⟨last.inputs, by rwa [Model.portsOn, hinputs] at hport⟩
    | output => exact ⟨last.outputs, by rwa [Model.portsOn, houtputs] at hport⟩
  obtain ⟨decls, hmem⟩ := hdeclared
  obtain ⟨decl, -, rfl⟩ := List.mem_map.mp hmem
  rfl

/-- A port whose first pin is found as the model declares it is a port of the model. -/
theorem Netlist.port?_of_mismatch?_eq_none {nl : Netlist} {m : Model} {slot : Slot} {p : Pin}
    (hfixed : m.hasVariablePorts = false) (hp : nl.pins[slot.pin]? = some p)
    (h : nl.mismatch? m slot = none) :
    m.port? p.mapping =
      some { name := p.mapping, size := slot.portSize, direction := p.direction } := by
  unfold mismatch? Model.portSize Model.portDirection? at h
  rw [hp, hfixed] at h
  cases hport : m.port? p.mapping with
  | none => simp [hport] at h
  | some port =>
    have hname : port.name = p.mapping := by simpa using List.find?_some hport
    obtain ⟨hdirection, hsize⟩ : port.direction = p.direction ∧ port.size = slot.portSize := by
      simpa [hport] using h
    rw [← hname, ← hsize, ← hdirection]

/-! ### Ports as they were described -/

/-- Whether one side of a node consists of given ports, which are those of a description. -/
structure Netlist.Realizes (nl : Netlist) (k : NodeId) (side : Direction) (described : List PortBinding)
    (ports : List NodePort) : Prop where
  pins : nl.pinsOfNode k side = ports.flatMap (·.pins)
  sizes : nl.sizesOfNode k side = ports.map (·.pins.length)
  described : ports.map (fun port => (port.label, port.pins.length)) =
    described.map fun port => (port.mapping, port.nets.length)
  placed : ∀ port ∈ ports, ∀ id ∈ port.pins, ∃ p, nl.pins[id]? = some p ∧ p.mapping = port.label ∧
    p.direction = side

namespace Netlist.Realizes

variable {nl nl' : Netlist} {k : NodeId} {side : Direction} {described : List PortBinding}
  {ports : List NodePort}

theorem mapping? (h : nl.Realizes k side described ports) :
    ∀ port ∈ ports, ∀ id ∈ port.pins, nl.mapping? id = some port.label := by
  intro port hport id hid
  obtain ⟨p, hp, hmapping, -⟩ := h.placed port hport id hid
  rw [Netlist.mapping?, hp, Option.map_some, hmapping]

theorem of_resembles (h : nl.Realizes k side described ports) (hnl : nl'.Resembles nl) :
    nl'.Realizes k side described ports where
  pins := by rw [hnl.pinsOfNode, h.pins]
  sizes := by rw [hnl.sizesOfNode, h.sizes]
  described := h.described
  placed port hport id hid := by
    obtain ⟨p, hp, hmapping, hdirection⟩ := h.placed port hport id hid
    have hsame := hnl.map_pins (fun p => (p.mapping, p.direction)) (fun _ => rfl) id
    rw [hp, Option.map_some] at hsame
    obtain ⟨p', hp', hpair⟩ := Option.map_eq_some_iff.mp hsame
    obtain ⟨hmapping', hdirection'⟩ := Prod.mk.inj hpair
    exact ⟨p', hp', hmapping'.trans hmapping, hdirection'.trans hdirection⟩

/-- The names under which the pins of a node are bound. -/
theorem map_bindingName (h : nl.Realizes k side described ports) :
    (Slot.cut (nl.pinsOfNode k side) (nl.sizesOfNode k side)).map nl.bindingName =
      Blif.bitsOf (described.map (PortBinding.modelPort side)) := by
  have hnames := congrArg (List.map Prod.fst) (map_bindingName_ports h.mapping?)
  rw [h.pins, h.sizes]
  rw [List.map_map, List.map_flatMap] at hnames
  refine hnames.trans ?_
  have hbits : (ports.map fun port => (port.label, port.pins.length)).flatMap (fun port =>
      ModelPort.bitNames { name := port.1, size := port.2, direction := side }) =
        Blif.bitsOf (described.map (PortBinding.modelPort side)) := by
    rw [h.described, Blif.bitsOf, List.flatMap_map, List.flatMap_map]
    rfl
  rw [← hbits, List.flatMap_map]
  exact congrArg (List.flatMap · ports) (funext fun port => port.map_fst_bindings side)

/-- A port that has pins is compared with the model at its first pin. -/
theorem exists_slot (h : nl.Realizes k side described ports) {port : PortBinding}
    (hport : port ∈ described) (hpins : port.nets ≠ []) :
    ∃ slot ∈ Slot.cut (nl.pinsOfNode k side) (nl.sizesOfNode k side), slot.index = 0 ∧
      slot.portSize = port.nets.length ∧ ∃ p, nl.pins[slot.pin]? = some p ∧
        p.mapping = port.mapping ∧ p.direction = side := by
  obtain ⟨i, hi⟩ := List.mem_iff_getElem?.mp hport
  have hpair := congrArg (·[i]?) h.described
  simp only [List.getElem?_map, hi, Option.map_some] at hpair
  obtain ⟨nodePort, hnodePort, hsame⟩ := Option.map_eq_some_iff.mp hpair
  obtain ⟨hlabel, hlength⟩ := Prod.mk.inj hsame
  rcases hfirst : nodePort.pins with _ | ⟨pin, rest⟩
  · rw [hfirst] at hlength
    exact absurd (List.length_eq_zero_iff.mp hlength.symm) hpins
  · have hmem : nodePort ∈ ports := List.mem_of_getElem? hnodePort
    obtain ⟨p, hp, hmapping, hdirection⟩ := h.placed nodePort hmem pin (by simp [hfirst])
    refine ⟨⟨pin, i, 0, nodePort.pins.length⟩, ?_, rfl, hlength, p, hp, hmapping.trans hlabel,
      hdirection⟩
    have hcut : Slot.cut (ports.flatMap (·.pins)) (ports.map (·.pins.length)) =
        Slot.cutFrom 0 (ports.map (·.pins)).flatten ((ports.map (·.pins)).map List.length) := by
      rw [List.map_map, ← List.flatMap_def]
      rfl
    rw [h.pins, h.sizes, hcut]
    refine Slot.mem_cutFrom_iff.mpr ⟨i, nodePort.pins, (Nat.zero_add i).symm, ?_, ?_, rfl⟩
    · rw [List.getElem?_map, hnodePort]
      rfl
    · rw [hfirst]
      rfl

end Netlist.Realizes

theorem Builder.HoldsPorts.realizes {b : Builder} {k : NodeId} {side : Direction}
    {described : List PortBinding} (h : b.HoldsPorts k side described) :
    ∃ ports, b.netlist.Realizes k side described ports := by
  obtain ⟨pins, hpins, hsizes, hassigned⟩ := h
  suffices hports : ∃ ports : List NodePort, ports.map (·.pins) = pins ∧
      ports.map (fun port => (port.label, port.pins.length)) =
        described.map (fun port => (port.mapping, port.nets.length)) ∧
      ∀ port ∈ ports, ∀ id ∈ port.pins, ∃ p, b.netlist.pins[id]? = some p ∧ p.mapping = port.label ∧
        p.direction = side by
    obtain ⟨ports, rfl, hdescribed, hplaced⟩ := hports
    refine ⟨ports, ?_, ?_, hdescribed, hplaced⟩
    · rw [hpins, List.flatMap_def]
    · rw [hsizes, List.map_map]
      rfl
  clear hpins hsizes
  induction hassigned with
  | nil => exact ⟨[], rfl, rfl, fun port hport => nomatch hport⟩
  | @cons ids port pins described hfirst _ ih =>
    obtain ⟨ports, rfl, hdescribed, hplaced⟩ := ih
    refine ⟨⟨port.mapping, ids⟩ :: ports, rfl, ?_, ?_⟩
    · rw [List.map_cons, List.map_cons, hdescribed, hfirst.length_eq]
    · intro nodePort hport
      rcases List.mem_cons.mp hport with rfl | hport
      · intro id hid
        obtain ⟨i, hi⟩ := List.mem_iff_getElem?.mp hid
        obtain ⟨name?, -, w, hp, -⟩ := exists_of_forall₂ hfirst.flip hi
        exact ⟨_, hp, rfl, rfl⟩
      · exact hplaced nodePort hport

/-! ### The line of an instance -/

def Primitive.bound (p : Primitive) : Direction → List (String × String)
  | .input => p.inputs.map fun b => (b.port, b.driver.name)
  | .output => p.outputs.map fun b => (b.port, b.name)

theorem Blif.subcktLine_eq (p : Primitive) :
    subcktLine p = Text.words (".subckt" :: p.cellType ::
      (p.bound .input ++ p.bound .output).map fun b => b.1 ++ "=" ++ b.2) := by
  rw [subcktLine, List.map_append, Primitive.bound, Primitive.bound, List.map_map, List.map_map]
  rfl

theorem Blif.statement_block {n : Node} {model : String} (hkind : n.kind = .hardBlock model)
    {p : Primitive} {showParams : Bool} {text : String} (h : statement n p showParams = .ok text) :
    ∃ params, text = instanceText p.cellType (p.bound .input ++ p.bound .output) params := by
  unfold statement primitiveLines at h
  rw [hkind] at h
  cases h
  dsimp only
  rw [subcktLine_eq]
  exact ⟨_, lines_subckt _ _ _⟩

theorem Netlist.Resembles.bindingName {nl nl' : Netlist} (h : nl.Resembles nl') :
    nl.bindingName = nl'.bindingName := by
  funext slot
  have hmapping : nl.mapping? slot.pin = nl'.mapping? slot.pin :=
    h.map_pins (·.mapping) (fun _ => rfl) slot.pin
  rw [Netlist.bindingName, Netlist.bindingName, hmapping]

namespace Emit

/-- Whether a text is the statement of an instance of a model whose formal names are given. -/
def WritesInstance (model : String) (formals : Direction → List String) (text : String) : Prop :=
  ∃ (bound : Direction → List (String × String)) (params : List String),
    text = Blif.instanceText model (bound .input ++ bound .output) params ∧
      ∀ side, (bound side).map Prod.fst = formals side

/-- A node is assembled under the names of its slots. -/
theorem assemble_bound {r : Run} {k : NodeId} {n : Node} (hn : r.netlist.nodes[k]? = some n) :
    Ends (assemble k) r
      (fun p _ => p.cellType = n.kind.cellType?.getD "" ∧ ∀ side, (p.bound side).map Prod.fst =
        (Slot.cut (r.netlist.pinsOfNode k side) (r.netlist.sizesOfNode k side)).map
          r.netlist.bindingName)
      fun _ _ => True := by
  refine (assemble_ends hn).imp ?_ fun _ _ _ => trivial
  rintro p _ ⟨htype, hinputs, houtputs⟩
  refine ⟨htype, fun side => ?_⟩
  have hpins : r.netlist.pinsOfNode k side = n.pins side := by rw [pinsOfNode, hn]; rfl
  have hsizes : r.netlist.sizesOfNode k side = n.sizes side := by rw [sizesOfNode, hn]; rfl
  rw [hpins, hsizes]
  cases side with
  | input =>
    have hnames := congrArg (List.map Prod.fst) hinputs
    rw [List.map_map, List.map_map] at hnames
    rw [Primitive.bound, List.map_map]
    exact hnames
  | output =>
    have hnames := congrArg (List.map Prod.fst) houtputs
    rw [List.map_map, List.map_map] at hnames
    rw [Primitive.bound, List.map_map]
    exact hnames

/-- A hard block is written as an instance of its model, under the names of its slots. -/
theorem emitBlif_block {c : Context} {r : Run} {k : NodeId} {n : Node} {model : String}
    (hnl : r.netlist.Powered) (hn : r.netlist.nodes[k]? = some n) (hkind : n.kind = .hardBlock model) :
    Ends (emitBlif c k) r
      (fun text? _ => ∀ text, text? = some text → WritesInstance model (fun side =>
        (Slot.cut (r.netlist.pinsOfNode k side) (r.netlist.sizesOfNode k side)).map
          r.netlist.bindingName) text)
      fun _ _ => True := by
  refine Ends.bind (ends_ask fun n' hn' => ?_)
  rw [node_eq_ok_iff] at hn'
  cases hn.symm.trans hn'
  split
  · refine Ends.bind ((instantiate_ends k _).imp ?_ fun _ _ _ => trivial)
    rintro _ _ rfl
    generalize c.config.traversalMark = mark
    obtain ⟨-, hsame⟩ := (lasting_resembles r.netlist).instantiate ⟨hnl, resembles_refl _⟩ k mark
    have hnode : (r.netlist.instantiate k mark).nodes[k]? = some { n with mark } := by
      rw [getElem?_nodes_instantiate, if_pos rfl, hn]
      rfl
    refine Ends.bind ((assemble_bound hnode).imp ?_ fun _ _ _ => trivial)
    rintro p _ ⟨htype, hbound⟩
    refine Ends.bind (ends_demand fun text htext => ends_bind_any fun _ _ => ends_pure ?_)
    intro _ hsome
    cases hsome
    obtain ⟨params, rfl⟩ := Blif.statement_block hkind htext
    have htype : p.cellType = model := by
      rw [htype, hkind]
      rfl
    refine ⟨p.bound, params, by rw [htype], fun side => (hbound side).trans ?_⟩
    dsimp only
    rw [hsame.pinsOfNode, hsame.sizesOfNode, hsame.bindingName]
  · refine ends_bind_any fun _ _ => ends_pure ?_
    intro text h
    cases h

end Emit

/-! ### Blocks that match their models -/

/-- Where no difference to a model is found, a port that has pins is a port of the model. -/
theorem Netlist.Realizes.port?_of_mismatches_eq_nil {nl : Netlist} {k : NodeId} {n : Node} {m : Model}
    (hn : nl.nodes[k]? = some n) (hfixed : m.hasVariablePorts = false) (h : nl.mismatches m n = [])
    {side : Direction} {described : List PortBinding} {ports : List NodePort}
    (hports : nl.Realizes k side described ports) {port : PortBinding} (hport : port ∈ described)
    (hpins : port.nets ≠ []) : m.port? port.mapping = some (port.modelPort side) := by
  obtain ⟨slot, hslot, hindex, hsize, p, hp, hmapping, hdirection⟩ := hports.exists_slot hport hpins
  have hall : slot ∈ n.inputSlots ++ n.outputSlots := by
    rw [pinsOfNode, sizesOfNode, hn] at hslot
    cases side with
    | input => exact List.mem_append_left _ hslot
    | output => exact List.mem_append_right _ hslot
  have hnone : nl.mismatch? m slot = none := by
    have hfirst := List.filterMap_eq_nil_iff.mp h slot
    exact hfirst (List.mem_filter.mpr ⟨hall, decide_eq_true hindex⟩)
  have hfound := port?_of_mismatch?_eq_none hfixed hp hnone
  rw [hmapping, hdirection, hsize] at hfound
  exact hfound

/-- Whatever was asked of a circuit, a declared node has the ports that are described. -/
theorem CircuitDescription.realizes_of_reaches {d : CircuitDescription} {circuit : Circuit}
    (hbuild : d.build = .ok circuit) {k : Nat} {decl : NodeDeclaration} (hk : d.nodes[k]? = some decl)
    {nl : Netlist} (hreaches : circuit.netlist.Reaches nl) (side : Direction) :
    ∃ ports, nl.Realizes (d.nodeId k) side (decl.ports side) ports := by
  have hsame := (sound_build hbuild).1.resembles_of_reaches hreaches
  obtain ⟨b, hnodes, h⟩ := bind_eq_ok_iff.mp hbuild
  cases h
  have hheld := (Builder.holds_of_starts hnodes).2.1 k decl hk
  obtain ⟨ports, hports⟩ := (hheld.ports side).realizes
  exact ⟨ports, hports.of_resembles hsame⟩

/-- Whatever was asked of a circuit, a declared hard block is one of its model. -/
theorem CircuitDescription.kind_of_reaches {d : CircuitDescription} {circuit : Circuit}
    (hbuild : d.build = .ok circuit) {k : Nat} {decl : NodeDeclaration} (hk : d.nodes[k]? = some decl)
    {model : String} (hkind : decl.kind = .hardBlock model) {nl : Netlist}
    (hreaches : circuit.netlist.Reaches nl) {n : Node} (hn : nl.nodes[d.nodeId k]? = some n) :
    n.kind = .hardBlock model := by
  obtain ⟨kind, htoKind, hfound⟩ := kind?_nodeId hbuild hk
  have hsame := (sound_build hbuild).1.resembles_of_reaches hreaches
  have hkinds := hsame.map_nodes (·.kind) (fun _ => rfl) (d.nodeId k)
  rw [hn, Option.map_some] at hkinds
  rw [hkind] at htoKind
  cases htoKind
  exact Option.some.inj (hkinds.trans hfound)

/-- The bits of ports that a model has on their side are bits of the model.  A port without pins has no
bits. -/
theorem Model.bitsOf_subset_of_port? {m : Model} (hm : m.WellDirected) {side : Direction}
    {ports : List PortBinding}
    (h : ∀ port ∈ ports, port.nets ≠ [] → m.port? port.mapping = some (port.modelPort side)) :
    Blif.bitsOf (ports.map (PortBinding.modelPort side)) ⊆ Blif.bitsOf (m.portsOn side) := by
  intro name hbits
  obtain ⟨_, hmem, hbit⟩ := List.mem_flatMap.mp hbits
  obtain ⟨port, hport, rfl⟩ := List.mem_map.mp hmem
  by_cases hpins : port.nets = []
  · rw [PortBinding.modelPort, hpins] at hbit
    cases hbit
  · have hdeclared := Model.mem_portsOn_of_port? hm (h port hport hpins)
    exact List.mem_flatMap.mpr ⟨port.modelPort side, hdeclared, hbit⟩

/-- A hard block in which no difference to its model is found, and which is written, is written under the
names of the bits of its ports, as they are described.  Each port that has pins is a port of the model, of
the same side and size, and where the model is declared, its names stand in the line for that side.  It does
not matter what was asked of the circuit before. -/
theorem formals_of_matching {d : CircuitDescription} {circuit : Circuit}
    (hbuild : d.build = .ok circuit) {k : Nat} {decl : NodeDeclaration} {model : String}
    (hk : d.nodes[k]? = some decl) (hkind : decl.kind = .hardBlock model) {r : Run}
    (hr : circuit.netlist.Reaches r.netlist) {n : Node}
    (hn : r.netlist.nodes[d.nodeId k]? = some n) {config : Config} {m : Model}
    (hm : (Context.new circuit.catalog config).catalog.find? model = some m)
    (hfixed : m.hasVariablePorts = false) (hmatching : r.netlist.mismatches m n = [])
    {c : Context} {text : String} {s : Run}
    (hwritten : Emit.emitBlif c (d.nodeId k) r = .ok (some text) s) :
    Emit.WritesInstance model
        (fun side => Blif.bitsOf ((decl.ports side).map (PortBinding.modelPort side))) text ∧
      (∀ side, ∀ port ∈ decl.ports side, port.nets ≠ [] →
        m.port? port.mapping = some (port.modelPort side)) ∧
      ∀ declaration, Blif.declaration m = .ok declaration → ∃ inputs outputs : List String,
        declaration = ".model " ++ model ++ "\n"
          ++ ".inputs" ++ String.join (inputs.map (" " ++ ·)) ++ "\n"
          ++ ".outputs" ++ String.join (outputs.map (" " ++ ·)) ++ "\n"
          ++ ".blackbox\n" ++ ".end\n" ++ "\n" ∧
        Blif.bitsOf (decl.inputs.map (PortBinding.modelPort .input)) ⊆ inputs ∧
        Blif.bitsOf (decl.outputs.map (PortBinding.modelPort .output)) ⊆ outputs := by
  have hpowered := ((lasting_resembles _).of_reaches hr
    ⟨(CircuitDescription.sound_build hbuild).1, resembles_refl _⟩).1
  have hports := CircuitDescription.realizes_of_reaches hbuild hk hr
  have hfound : ∀ side, ∀ port ∈ decl.ports side, port.nets ≠ [] →
      m.port? port.mapping = some (port.modelPort side) := by
    intro side port hport hpins
    obtain ⟨ports, hports⟩ := hports side
    exact hports.port?_of_mismatches_eq_nil hn hfixed hmatching hport hpins
  refine ⟨?_, hfound, ?_⟩
  · have hkind' := CircuitDescription.kind_of_reaches hbuild hk hkind hr hn
    have hwrites := (Emit.emitBlif_block (c := c) hpowered hn hkind').of_ok hwritten text rfl
    obtain ⟨bound, params, htext, hformals⟩ := hwrites
    refine ⟨bound, params, htext, fun side => ?_⟩
    obtain ⟨ports, hports⟩ := hports side
    exact (hformals side).trans hports.map_bindingName
  · intro declaration hdeclaration
    have hdirected := CircuitDescription.wellDirected_of_mem hbuild (List.mem_of_find?_eq_some hm)
    have hname : m.name = model := by simpa using List.find?_some hm
    obtain ⟨-, rfl⟩ := Blif.declaration_eq_ok_iff.mp hdeclaration
    refine ⟨Blif.bitsOf m.inputs, Blif.bitsOf m.outputs, ?_,
      Model.bitsOf_subset_of_port? hdirected (hfound .input),
      Model.bitsOf_subset_of_port? hdirected (hfound .output)⟩
    unfold Blif.declarationText
    rw [hname]

/-- A block with buses and single pins. -/
def busyBlock : NodeDeclaration where
  name := "u"
  kind := .hardBlock "m"
  inputs := [
    { mapping := "a", nets := [some "x", some "free"] },
    { mapping := "b", nets := [none] },
    { mapping := "clk", nets := [some "x"] }]
  outputs := [{ mapping := "o", nets := [none] }]

/-- A circuit of that block, with a model that lists the ports in another order, and one more. -/
def busyDescription : CircuitDescription where
  models := [{ name := "m", inputs := [⟨"b", 1⟩, ⟨"a", 2⟩, ⟨"c", 2⟩, ⟨"clk", 1⟩], outputs := [⟨"o", 1⟩] }]
  inputs := ["x"]
  nodes := [busyBlock]

def busyCircuit : Circuit := busyDescription.build.toOption.getD ⟨none, {}, {}⟩

def busyModel : Model where
  name := "m"
  inputs := [.input "b" 1, .input "a" 2, .input "c" 2, .input "clk" 1]
  outputs := [.output "o" 1]
  used := true

theorem formals_busyCircuit :
    busyDescription.build = .ok busyCircuit ∧
      (Context.new busyCircuit.catalog {}).catalog.find? "m" = some busyModel ∧
      ∃ n text s, busyCircuit.netlist.nodes[4]? = some n ∧
        busyCircuit.netlist.mismatches busyModel n = [] ∧
        Emit.emitBlif (.new busyCircuit.catalog {}) 4 { netlist := busyCircuit.netlist }
          = .ok (some text) s ∧
        text = ".subckt m a[0]=x a[1]=gnd b=unconn clk=x o=u^o\n\n" ∧
        Emit.WritesInstance "m" (fun side =>
          Blif.bitsOf ((busyBlock.ports side).map (PortBinding.modelPort side))) text ∧
        Blif.bitsOf (busyBlock.inputs.map (PortBinding.modelPort .input)) = ["a[0]", "a[1]", "b", "clk"] ∧
        Blif.declaration busyModel =
          .ok ".model m\n.inputs b a[0] a[1] c[0] c[1] clk\n.outputs o\n.blackbox\n.end\n\n" := by
  have hbuild : busyDescription.build = .ok busyCircuit := eq_ok_getD (by decide +kernel) _
  have hmodel : (Context.new busyCircuit.catalog {}).catalog.find? "m" = some busyModel := by decide +kernel
  have hnode : (busyCircuit.netlist.nodes[4]?).map (busyCircuit.netlist.mismatches busyModel) =
      some [] := by decide +kernel
  obtain ⟨n, hn, hmatching⟩ := Option.map_eq_some_iff.mp hnode
  have hanswer : (Emit.answer (Emit.emitBlif (.new busyCircuit.catalog {}) 4)
      { netlist := busyCircuit.netlist }).toOption.map id =
        some (some ".subckt m a[0]=x a[1]=gnd b=unconn clk=x o=u^o\n\n") := by decide +kernel
  obtain ⟨_, s, hwritten, rfl⟩ := Emit.exists_of_answer hanswer
  have hblock : busyDescription.nodes[0]? = some busyBlock := rfl
  have hid : busyDescription.nodeId 0 = 4 := rfl
  -- The run is kept abstract, so that no step of the proof computes the circuit.
  have hformals (r : Run) (hr : r = { netlist := busyCircuit.netlist }) := by
    have hnetlist : r.netlist = busyCircuit.netlist := by rw [hr]
    have hreaches : busyCircuit.netlist.Reaches r.netlist := hnetlist ▸ .start
    have hn' : r.netlist.nodes[busyDescription.nodeId 0]? = some n := by rw [hnetlist, hid, hn]
    have hmatching' : r.netlist.mismatches busyModel n = [] := by rw [hnetlist, hmatching]
    rw [← hr, ← hid] at hwritten
    exact formals_of_matching hbuild hblock rfl hreaches hn' hmodel (by decide) hmatching' hwritten
  exact ⟨hbuild, hmodel, n, _, s, hn, hmatching, hwritten, rfl, (hformals _ rfl).1, by decide +kernel,
    by decide +kernel⟩

/-- A block whose second input port has no pins, which its model declares with two. -/
def hollowBlock : NodeDeclaration where
  name := "u"
  kind := .hardBlock "m"
  inputs := [{ mapping := "a", nets := [none] }, { mapping := "b", nets := [] }]
  outputs := [{ mapping := "o", nets := [none] }]

def hollowDescription : CircuitDescription where
  models := [{ name := "m", inputs := [⟨"a", 1⟩, ⟨"b", 2⟩], outputs := [⟨"o", 1⟩] }]
  nodes := [hollowBlock]

def hollowCircuit : Circuit := hollowDescription.build.toOption.getD ⟨none, {}, {}⟩

def hollowModel : Model where
  name := "m"
  inputs := [.input "a" 1, .input "b" 2]
  outputs := [.output "o" 1]
  used := true

/-- No difference is found, and the block is written without the bits of that port, which the declaration of
the model lists. -/
theorem formals_missing_hollowCircuit :
    hollowDescription.build = .ok hollowCircuit ∧
      (Context.new hollowCircuit.catalog {}).catalog.find? "m" = some hollowModel ∧
      hollowModel.hasVariablePorts = false ∧
      (hollowCircuit.netlist.nodes[3]?).map (hollowCircuit.netlist.mismatches hollowModel) = some [] ∧
      (∃ s, Emit.emitBlif (.new hollowCircuit.catalog {}) 3 { netlist := hollowCircuit.netlist } =
        .ok (some ".subckt m a=unconn o=u^o\n\n") s) ∧
      Blif.declaration hollowModel =
        .ok ".model m\n.inputs a b[0] b[1]\n.outputs o\n.blackbox\n.end\n\n" ∧
      ∃ port ∈ hollowBlock.ports .input, ∃ declared,
        hollowModel.port? port.mapping = some declared ∧
          (port.modelPort .input).bitNames = [] ∧ declared.bitNames = ["b[0]", "b[1]"] := by
  have hanswer : (Emit.answer (Emit.emitBlif (.new hollowCircuit.catalog {}) 3)
      { netlist := hollowCircuit.netlist }).toOption.map id =
        some (some ".subckt m a=unconn o=u^o\n\n") := by decide +kernel
  refine ⟨eq_ok_getD (by decide +kernel) _, by decide +kernel, by decide, by decide +kernel, ?_,
    by decide +kernel, ?_⟩
  · obtain ⟨_, s, hwritten, rfl⟩ := Emit.exists_of_answer hanswer
    exact ⟨s, hwritten⟩
  · exact ⟨{ mapping := "b", nets := [] }, by decide, .input "b" 2, by decide, by decide, by decide⟩

end CircuitLowering
