import CircuitLowering.Proofs.Blif.Texts
import CircuitLowering.Proofs.Circuit.Interface
import CircuitLowering.Proofs.Design.Interface
import CircuitLowering.Proofs.Emission.Writers

/-!
# The interface of what is written

Both writers ask the netlist for the names of the inputs and outputs of the circuit, and naming outputs
and tying inputs leaves those names alone.  BLIF lists them as they are.  In a design each becomes the
name of a port, and a module has one wire for a name, which has one direction: where an input and an
output of the circuit have one name the port is an output, and the input is lost
(`interfaces_of_written`).
-/

namespace CircuitLowering

open Netlist

structure Netlist.HasBoundary (nl : Netlist) (inputs outputs : List String) : Prop where
  inputs : nl.topInputs.map nl.nodeName? = inputs.map some
  outputs : nl.topOutputs.map nl.nodeName? = outputs.map some

theorem Netlist.HasBoundary.of_graph {nl nl' : Netlist} {inputs outputs : List String}
    (hnl : nl.HasBoundary inputs outputs) (h : nl'.graph = nl.graph) :
    nl'.HasBoundary inputs outputs := by
  have hnames : nl'.nodeName? = nl.nodeName? :=
    funext (map_nodes_of_graph h (·.name) fun _ => rfl)
  constructor
  · rw [topInputs_of_graph h, hnames]
    exact hnl.inputs
  · rw [topOutputs_of_graph h, hnames]
    exact hnl.outputs

namespace Emit

variable {r : Run}

/-! ### Names of nodes -/

theorem names_ends (ids : List NodeId) :
    Ends (names ids) r (fun ns r' => r' = r ∧ ids.map r.netlist.nodeName? = ns.map some)
      fun _ _ => True := by
  unfold names
  induction ids with
  | nil => exact ends_pure ⟨rfl, rfl⟩
  | cons id ids ih =>
    rw [List.mapM_cons]
    refine Ends.bind (Ends.bind (ends_ask fun n hn => ends_pure ?_))
    refine Ends.bind (ih.imp ?_ fun _ _ _ => trivial)
    intro ns r' hend
    obtain ⟨rfl, hns⟩ := hend
    have hname : r'.netlist.nodeName? id = some n.name := by
      rw [nodeName?, node_eq_ok_iff.mp hn, Option.map_some]
    exact ends_pure ⟨rfl, by rw [List.map_cons, hname, hns, List.map_cons]⟩

/-- The nodes of a circuit have their names while it is written. -/
theorem names_of_nodes {nl : Netlist} {ids : List NodeId} {wanted : List String}
    (hwanted : ids.map nl.nodeName? = wanted.map some) (hr : r.netlist.nodeName? = nl.nodeName?) :
    Ends (names ids) r (fun ns r' => r' = r ∧ ns = wanted) fun _ _ => True := by
  refine (names_ends ids).imp ?_ fun _ _ _ => trivial
  intro ns r' hend
  obtain ⟨rfl, hns⟩ := hend
  rw [hr, hwanted] at hns
  exact ⟨rfl, ((List.map_inj_right fun _ _ => Option.some.inj).mp hns).symm⟩

/-! ### Ports of the top module -/

theorem emitCell_directions (c : Context) (d : Design) (m : Module) (id : NodeId) :
    Ends (emitCell c d m id) r (fun extended _ => (extended.getD m).directions = m.directions)
      fun _ _ => True := by
  unfold emitCell
  refine ends_bind_any fun n r => ?_
  by_cases hkind : n.kind.isPrimitive
  · rw [if_pos hkind]
    refine ends_bind_any fun _ r => ends_bind_any fun p r => ?_
    refine Ends.bind (ends_demand fun result hresult => Ends.bind (ends_demand fun m' hm' => ?_))
    refine ends_bind_any fun _ r => ends_pure ?_
    exact (Module.directions_addCell hm').trans (Cell.keeps_ofPrimitive hresult).directions
  · rw [if_neg hkind]
    exact ends_bind_any fun _ r => ends_pure rfl

theorem emitCells_directions (c : Context) (d : Design) (m : Module) (ids : List NodeId) :
    Ends (emitCells c d m ids) r (fun m' _ => m'.directions = m.directions) fun _ _ => True := by
  induction ids generalizing r m with
  | nil => exact ends_pure rfl
  | cons id ids ih =>
    refine Ends.bind ((emitCell_directions c d m id).imp ?_ fun _ _ _ => trivial)
    intro extended r' hcell
    exact (ih (extended.getD m)).imp (fun m' _ hcells => hcells.trans hcell) fun _ _ _ => trivial

theorem joinOutputs_directions (m : Module) (ids : List NodeId) :
    Ends (joinOutputs m ids) r (fun m' _ => m'.directions = m.directions) fun _ _ => True := by
  induction ids generalizing r m with
  | nil => exact ends_pure rfl
  | cons id ids ih =>
    refine ends_bind_any fun output r => ends_bind_any fun driver r => ?_
    have hbit := (m.keeps_driverBit driver).directions
    generalize m.driverBit driver = joined at hbit ⊢
    obtain ⟨bit, m₁⟩ := joined
    dsimp only at hbit ⊢
    have hrest {m₂ : Module} (r : Run) (hm₂ : m₂.directions = m₁.directions) :
        Ends (joinOutputs m₂ ids) r (fun m' _ => m'.directions = m.directions) fun _ _ => True :=
      (ih m₂).imp (fun m' _ hm' => hm'.trans (hm₂.trans hbit)) fun _ _ _ => trivial
    split
    · exact Ends.bind (ends_pure (hrest r rfl))
    · exact Ends.bind (ends_demand fun m₂ hm₂ => hrest r (Module.keeps_connect hm₂).directions)

theorem insertModule_module? (d : Design) (name : String) (m : Module) :
    Ends (insertModule d name m) r (fun d' _ => d'.module? name = some m) fun _ _ => True := by
  unfold insertModule Design.addModule
  cases d.modules.contains name with
  | true => exact ends_fail trivial
  | false => exact ends_pure (d.modules.get?_insert_self name m)

/-- The ports that stand for the inputs and outputs of a circuit: one for each name, and an output where
the name is one of an output. -/
def boundaryPorts (inputs outputs : List String) : List (String × Direction) :=
  (inputs ++ outputs).eraseDups.map fun name => (name, if name ∈ outputs then .output else .input)

theorem mem_boundaryPorts {inputs outputs : List String} {name : String} {side : Direction} :
    (name, side) ∈ boundaryPorts inputs outputs ↔
      (name ∈ inputs ∨ name ∈ outputs) ∧
        (if name ∈ outputs then Direction.output else .input) = side := by
  simp only [boundaryPorts, List.mem_map, List.mem_eraseDups, List.mem_append, Prod.mk.injEq]
  constructor
  · rintro ⟨name, hname, rfl, hside⟩
    exact ⟨hname, hside⟩
  · rintro ⟨hname, hside⟩
    exact ⟨name, hname, rfl, hside⟩

theorem interface_boundary {m : Module} {inputs outputs : List String}
    (h : m.directions = (addBoundary .output (addBoundary .input {} inputs) outputs).directions) :
    m.numberPorts.interface = boundaryPorts inputs outputs := by
  have hnone : ({} : Module).wires.entries = Module.scalarPorts [] fun _ => .input := rfl
  have hinputs := Module.entries_foldl_addPort_scalarPorts hnone .input inputs
  have hboth := Module.entries_foldl_addPort_scalarPorts hinputs .output outputs
  rw [Module.interface_numberPorts, h, Module.directions, addBoundary, addBoundary, hboth,
    Module.portsAmong_scalarPorts]
  simp only [ite_self, List.nil_append, boundaryPorts]

/-! ### Whole circuits -/

section Circuits

variable (c : Context) {inputs outputs : List String}

def blifInterface (top : String) (inputs outputs : List String) : String :=
  ".model " ++ top ++ "\n"
    ++ ".inputs " ++ String.intercalate " " inputs ++ "\n"
    ++ ".outputs " ++ String.intercalate " " outputs ++ "\n"

theorem lines_cons_interface (top : String) (inputs outputs rest : List String) :
    Text.lines ((".model " ++ top) :: (".inputs " ++ Text.words inputs) ::
        (".outputs " ++ Text.words outputs) :: rest) =
      blifInterface top inputs outputs ++ Text.lines rest := by
  simp only [blifInterface, Text.lines_cons, Text.words, String.append_assoc]

theorem writeBlif_interface (hnl : r.netlist.CrossReferenced)
    (hboundary : r.netlist.HasBoundary inputs outputs) :
    Ends (writeBlif c) r
      (fun text _ => ∃ rest, text = blifInterface c.config.topModule inputs outputs ++ rest)
      fun _ _ => True := by
  have hprepared := hnl.prepared c.config.traversalMark
  replace hboundary := hboundary.of_graph (r.netlist.graph_instantiateAll c.config.traversalMark)
  unfold writeBlif
  refine Ends.bind (ends_modifyNetlist (Ends.bind (ends_get (ends_tell_bind_any ?_))))
  intro r₀ hr₀
  dsimp only at hr₀ ⊢
  rw [← hr₀] at hprepared hboundary ⊢
  -- what comes before the names ties pins and leaves the nodes alone
  have hbody := emitBlifAll_writes c "" hprepared (map_range_nodes r₀.netlist)
  refine Ends.bind (Ends.imp hbody ?_ fun _ _ _ => trivial)
  intro body r₁ hend
  have hr₁ : r₁.netlist.nodes = r₀.netlist.nodes := hend.2.1.nodes
  refine Ends.bind (Ends.imp (emitBuffers_reads "" _) ?_ fun _ _ _ => trivial)
  intro buffers r₂ hend
  have hr₂ : r₂.netlist.nodes = r₀.netlist.nodes := hend.2.1.nodes.trans hr₁
  have hnames : r₂.netlist.nodeName? = r₀.netlist.nodeName? :=
    funext fun k => by rw [nodeName?, hr₂, nodeName?]
  refine Ends.bind ((names_of_nodes hboundary.inputs hnames).imp ?_ fun _ _ _ => trivial)
  rintro _ _ ⟨rfl, rfl⟩
  refine Ends.bind ((names_of_nodes hboundary.outputs hnames).imp ?_ fun _ _ _ => trivial)
  rintro _ _ ⟨rfl, rfl⟩
  refine ends_bind_any fun ds r₃ => ?_
  cases ds.clash with
  | some name => exact Ends.bind (ends_fail trivial)
  | none =>
    simp only [lines_cons_interface, String.append_assoc]
    exact ends_pure ⟨_, rfl⟩

theorem buildDesign_interface (hboundary : r.netlist.HasBoundary inputs outputs) :
    Ends (buildDesign c) r
      (fun design _ => design.top = some c.config.topModule ∧
        ∃ m, design.module? c.config.topModule = some m ∧
          m.interface = boundaryPorts inputs outputs)
      fun _ _ => True := by
  replace hboundary := hboundary.of_graph (r.netlist.graph_instantiateAll c.config.traversalMark)
  unfold buildDesign
  refine Ends.bind (ends_modifyNetlist (Ends.bind (ends_get (ends_tell_bind_any ?_))))
  intro r₀ hr₀
  dsimp only at hr₀ ⊢
  rw [← hr₀] at hboundary ⊢
  refine Ends.bind (ends_modifyReport (Ends.bind ?_))
  refine Ends.imp (addBlackboxes_reads c) ?_ fun _ _ _ => trivial
  rintro ⟨d, clash⟩ r₁ ⟨-, hr₁, -⟩
  have hnames : r₁.netlist.nodeName? = r₀.netlist.nodeName? := congrArg nodeName? hr₁.netlist
  cases clash with
  | some name => exact Ends.bind (ends_fail trivial)
  | none =>
    refine Ends.bind ((names_of_nodes hboundary.inputs hnames).imp ?_ fun _ _ _ => trivial)
    rintro _ _ ⟨rfl, rfl⟩
    refine Ends.bind ((names_of_nodes hboundary.outputs hnames).imp ?_ fun _ _ _ => trivial)
    rintro _ _ ⟨rfl, rfl⟩
    refine Ends.bind ((emitCells_directions c d _ _).imp ?_ fun _ _ _ => trivial)
    intro m₁ r₂ hm₁
    refine Ends.bind ((joinOutputs_directions m₁ _).imp ?_ fun _ _ _ => trivial)
    intro m₂ r₃ hm₂
    refine Ends.bind ((insertModule_module? d c.config.topModule _).imp ?_ fun _ _ _ => trivial)
    intro d' r₄ hd'
    exact ends_pure ⟨rfl, _, hd', interface_boundary (hm₂.trans hm₁)⟩

end Circuits

end Emit

/-! ### Circuits that are written -/

/-- What the interface is of a circuit that was read from a description.  In BLIF the inputs and outputs
are listed as in the description.  In a design the top module has a port for each name, at the place where
the name comes first, and this is an output where the name is one of an output; so every output is an
output port, and every input is an input port just where no input has the name of an output. -/
theorem interfaces_of_written {d : CircuitDescription} {circuit : Circuit}
    (hbuild : d.build = .ok circuit) (c : Context) {r : Run} (hr : r.netlist = circuit.netlist) :
    (∀ text r', Emit.writeBlif c r = .ok text r' →
      ∃ rest, text = Emit.blifInterface c.config.topModule d.inputs d.outputs ++ rest) ∧
    ∀ design r', Emit.buildDesign c r = .ok design r' →
      design.top = some c.config.topModule ∧
      ∃ m, design.module? c.config.topModule = some m ∧
        m.interface = Emit.boundaryPorts d.inputs d.outputs ∧
        (∀ name ∈ d.outputs, (name, .output) ∈ m.interface) ∧
        ((∀ name ∈ d.inputs, (name, .input) ∈ m.interface) ↔
          ∀ name ∈ d.inputs, name ∉ d.outputs) := by
  have hcross : r.netlist.CrossReferenced :=
    hr ▸ (CircuitDescription.sound_build hbuild).1.toCrossReferenced
  have hboundary : r.netlist.HasBoundary d.inputs d.outputs := by
    obtain ⟨hinputs, houtputs⟩ := CircuitDescription.names_of_build hbuild
    exact hr ▸ ⟨hinputs, houtputs⟩
  constructor
  · intro text r' h
    exact (Emit.writeBlif_interface c hcross hboundary).of_ok h
  · intro design r' h
    obtain ⟨htop, m, hm, hinterface⟩ := (Emit.buildDesign_interface c hboundary).of_ok h
    refine ⟨htop, m, hm, hinterface, ?_, ?_⟩
    · intro name hname
      rw [hinterface]
      exact Emit.mem_boundaryPorts.mpr ⟨.inr hname, if_pos hname⟩
    · refine forall₂_congr fun name hname => ?_
      rw [hinterface, Emit.mem_boundaryPorts]
      by_cases hout : name ∈ d.outputs <;> simp [hname, hout]

/-- A wire that runs through a circuit, as an input and as an output, without a node. -/
def throughDescription : CircuitDescription where
  inputs := ["a"]
  outputs := ["a"]

def throughCircuit : Circuit := throughDescription.build.toOption.getD ⟨none, {}, {}⟩

theorem build_throughDescription : throughDescription.build = .ok throughCircuit :=
  eq_ok_getD (by decide +kernel) _

/-- The input is no port of the design, and nothing drives the output. -/
theorem ports_throughCircuit :
    throughDescription.build = .ok throughCircuit ∧
      ∃ design r', Emit.buildDesign (.new throughCircuit.catalog {})
          { netlist := throughCircuit.netlist } = .ok design r' ∧
        (design.module? "top").map (fun m => (m.interface, m.cells.size, m.connections.length)) =
          some ([("a", .output)], 0, 0) := by
  refine ⟨build_throughDescription, ?_⟩
  exact Emit.exists_of_answer (by decide +kernel)

theorem interfaces_throughCircuit :
    throughDescription.build = .ok throughCircuit ∧
      (∃ text r' rest, Emit.writeBlif (.new throughCircuit.catalog {})
          { netlist := throughCircuit.netlist } = .ok text r' ∧
        text = ".model top\n.inputs a\n.outputs a\n" ++ rest) ∧
      ∃ design r' m, Emit.buildDesign (.new throughCircuit.catalog {})
          { netlist := throughCircuit.netlist } = .ok design r' ∧
        design.module? "top" = some m ∧ ("a", .output) ∈ m.interface ∧
        ("a", .input) ∉ m.interface := by
  have hr : Run.netlist { netlist := throughCircuit.netlist } = throughCircuit.netlist := by dsimp only
  obtain ⟨hblif, hdesign⟩ := interfaces_of_written build_throughDescription
    (.new throughCircuit.catalog {}) hr
  have hwritten : Emit.succeeds (Emit.writeBlif (.new throughCircuit.catalog {}))
      { netlist := throughCircuit.netlist } = true := by decide +kernel
  have hbuilt : Emit.succeeds (Emit.buildDesign (.new throughCircuit.catalog {}))
      { netlist := throughCircuit.netlist } = true := by decide +kernel
  obtain ⟨text, r', hw⟩ := Emit.succeeds_iff.mp hwritten
  obtain ⟨design, r'', hb⟩ := Emit.succeeds_iff.mp hbuilt
  obtain ⟨rest, htext⟩ := hblif text r' hw
  obtain ⟨-, m, hm, -, houtputs, hinputs⟩ := hdesign design r'' hb
  have hlines : Emit.blifInterface "top" ["a"] ["a"] = ".model top\n.inputs a\n.outputs a\n" := by
    decide +kernel
  refine ⟨build_throughDescription, ⟨text, r', rest, hw, hlines ▸ htext⟩, design, r'', m, hb, hm,
    houtputs "a" List.mem_cons_self, ?_⟩
  intro hinput
  have hall : ∀ name ∈ throughDescription.inputs, (name, .input) ∈ m.interface := by
    intro name hname
    rwa [List.mem_singleton.mp hname]
  exact hinputs.mp hall "a" List.mem_cons_self List.mem_cons_self

end CircuitLowering
