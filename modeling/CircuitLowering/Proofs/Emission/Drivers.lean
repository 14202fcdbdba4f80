import CircuitLowering.Proofs.Circuit.Interface
import CircuitLowering.Proofs.Emission.Settled
import CircuitLowering.Proofs.Emission.Verdict

/-!
# Nets with several drivers

That a net has several drivers comes to light when a pin is read from it, and no one looks at a net
that is not read.  Writing a circuit reads the pins of its primitives and of its outputs, and apart from
these only nodes of the arithmetic path have input pins (`Netlist.Bordered`).  So a circuit that is
written may have nets with several drivers, but then they are read by such nodes or not at all
(`drivenOnce_of_written`).
-/

namespace CircuitLowering

open Netlist

/-- Whether no net has several drivers as far as the netlist is written: such a net is not constant, and
all pins that read it belong to nodes of the arithmetic path. -/
def Netlist.DrivenOnce (nl : Netlist) : Prop :=
  ∀ w, 1 < (nl.drivers w).length → isConstantNet w = false ∧
    ∀ id ∈ nl.pinsOfNet w .input, ∃ (k : NodeId) (n : Node), nl.nodes[k]? = some n ∧ id ∈ n.inputs ∧
      n.kind.isArithmetic

namespace Netlist

section Readers

variable {nl nl' : Netlist}

/-! ### Who reads a net -/

theorem Bordered.of_graph (hnl : nl.Bordered) (h : nl'.graph = nl.graph) : nl'.Bordered := by
  intro k kind hk
  have hpins : nl'.pinsOfNode = nl.pinsOfNode := by
    rw [← pinsOfNode_graph, h, pinsOfNode_graph]
  have hkind := map_nodes_of_graph h (·.kind) (fun _ => rfl) k
  rw [hpins, topOutputs_of_graph h]
  exact hnl k kind (hkind.symm.trans hk)

theorem Bordered.tieAll (hnl : nl.Bordered) (ids : List PinId) : (nl.tieAll ids).Bordered := by
  intro k kind hk
  have hpins : (nl.tieAll ids).pinsOfNode k .input = nl.pinsOfNode k .input := by
    rw [pinsOfNode, nodes_tieAll, pinsOfNode]
  rw [hpins, topOutputs_tieAll]
  rw [kind?, nodes_tieAll] at hk
  exact hnl k kind hk

/-- An input pin that writing the circuit does not read belongs to a node of the arithmetic path. -/
theorem Bordered.isArithmetic_of_unread (hnl : nl.Bordered) (hcross : nl.CrossReferenced)
    {id : PinId} {p : Pin} (hp : nl.pins[id]? = some p) (hinput : p.direction = .input)
    (hunread : id ∉ nl.readPins) :
    ∃ (k : NodeId) (n : Node), nl.nodes[k]? = some n ∧ id ∈ n.inputs ∧
      n.kind.isArithmetic := by
  obtain ⟨n, hn⟩ := hcross.node_of_pin hp
  have hid : id ∈ nl.pinsOfNode p.node .input :=
    (hcross.mem_pinsOfNode .input).mpr ⟨p, hp, rfl, hinput⟩
  have hpins : nl.pinsOfNode p.node .input = n.inputs := by
    rw [pinsOfNode, hn]
    rfl
  rw [mem_readPins, not_or] at hunread
  have hborder := hnl p.node n.kind (by rw [kind?, hn]; rfl)
  rw [hpins] at hid hborder
  refine ⟨p.node, n, hn, hid, ?_⟩
  rcases hborder with hprimitive | harithmetic | hnone | ⟨htop, pin, hone⟩
  · have hmem : n ∈ nl.nodes.toList := Array.mem_toList_iff.mpr (Array.mem_of_getElem? hn)
    exact absurd ⟨n, hmem, hprimitive, hid⟩ hunread.1
  · exact harithmetic
  · rw [hnone] at hid
    cases hid
  · -- the only pin of an output is the one through which the output is read
    rw [hone, List.mem_singleton] at hid
    refine absurd (List.mem_filterMap.mpr ⟨p.node, htop, ?_⟩) hunread.2
    rw [hn, Option.bind_some, hone, hid]
    rfl

end Readers

end Netlist

/-! ### Circuits that are written -/

/-- Where all pins that are read have been settled without an error, they have nets of one driver. -/
theorem Run.Settles.drivenOnce {r r' : Run} {mark : UInt16} (hnl : r.netlist.Powered)
    (hborder : r.netlist.Bordered) (herror : (r.prepare mark).netlist.circuitError? = none)
    (h : (r.prepare mark).Settles (r.prepare mark).netlist.readPins r') :
    r'.netlist.DrivenOnce := by
  have hgraph : (r.prepare mark).netlist.graph = r.netlist.graph :=
    r.netlist.graph_instantiateAll mark
  have hrepairs := Run.repairs_of_settles hnl.toCrossReferenced herror h
  have hnodes : r'.netlist.nodes = (r.prepare mark).netlist.nodes := h.nodes
  have htop : r'.netlist.topOutputs = (r.prepare mark).netlist.topOutputs := by
    rw [h.netlist, topOutputs_tieAll]
  have hread : r'.netlist.readPins = r.netlist.readPins := by
    rw [← readPins_of_graph hgraph]
    unfold readPins outputPins
    rw [hnodes, htop]
  have hcross : r'.netlist.CrossReferenced := by
    have hwired : r.netlist.Wired := ⟨hnl.toCrossReferenced, hnl.two_lt_nets⟩
    rw [h.netlist]
    exact ((hwired.of_graph hgraph).tieAll _).toCrossReferenced
  have hborder : r'.netlist.Bordered := by
    rw [h.netlist]
    exact (hborder.of_graph hgraph).tieAll _
  intro w hseveral
  constructor
  · by_contra hconstant
    rw [hrepairs.drivers, hnl.driven w (by simpa using hconstant)] at hseveral
    simp at hseveral
  · intro id hid
    obtain ⟨p, hp, hnet, hinput⟩ := (hcross.mem_pinsOfNet .input).mp hid
    refine hborder.isArithmetic_of_unread hcross hp hinput ?_
    intro hmem
    obtain ⟨w', driver, hw', hdriver⟩ := hrepairs.driven id (hread ▸ hmem)
    rw [netOf?, hp, Option.bind_some, hnet, Option.some.injEq] at hw'
    rw [hw', hdriver] at hseveral
    simp at hseveral

/-- When a writer has written a circuit that was read from a description, the nets with several drivers
are read by nodes of the arithmetic path alone, which are not written, and no constant net is among
them. -/
theorem drivenOnce_of_written {d : CircuitDescription} {circuit : Circuit}
    (hbuild : d.build = .ok circuit) (c : Context) {r : Run} (hr : r.netlist = circuit.netlist) :
    (∀ text r', Emit.writeBlif c r = .ok text r' → r'.netlist.DrivenOnce) ∧
      ∀ design r', Emit.buildDesign c r = .ok design r' → r'.netlist.DrivenOnce := by
  have hnl : r.netlist.Powered := hr ▸ (CircuitDescription.sound_build hbuild).1
  have hborder : r.netlist.Bordered := hr ▸ CircuitDescription.bordered_of_build hbuild
  constructor
  · intro text r' h
    obtain ⟨hnone, hsettles, -⟩ := (Emit.writeBlif_writes c hnl.toCrossReferenced).of_ok h
    exact hsettles.drivenOnce hnl hborder (Option.or_eq_none_iff.mp hnone).1
  · intro design r' h
    obtain ⟨hnone, hsettles, -⟩ := (Emit.buildDesign_writes c hnl.toCrossReferenced).of_ok h
    obtain ⟨-, hnone⟩ := Option.or_eq_none_iff.mp hnone
    exact hsettles.drivenOnce hnl hborder (Option.or_eq_none_iff.mp hnone).1

/-- Two gates that drive the net of one name, which an adder reads. -/
def contestedDescription : CircuitDescription where
  inputs := ["a"]
  outputs := ["y"]
  nodes := [
    { name := "p"
      kind := .reduceOr
      inputs := [{ mapping := "A", nets := [some "a"] }]
      outputs := [{ mapping := "Y", nets := [some "n"] }] },
    { name := "q"
      kind := .reduceAnd
      inputs := [{ mapping := "A", nets := [some "a"] }]
      outputs := [{ mapping := "Y", nets := [some "n"] }] },
    { name := "s"
      kind := .adder
      inputs := [{ mapping := "a", nets := [some "n"] }]
      outputs := [{ mapping := "sumout", nets := [some "y"] }] }]

def contestedCircuit : Circuit := contestedDescription.build.toOption.getD ⟨none, {}, {}⟩

theorem build_contestedDescription : contestedDescription.build = .ok contestedCircuit :=
  eq_ok_getD (by decide +kernel) _

/-- Both writers write it, and the net that the gates drive has two drivers. -/
theorem drivers_contestedCircuit :
    contestedDescription.build = .ok contestedCircuit ∧
      (∃ text r', Emit.writeBlif (.new contestedCircuit.catalog {})
        { netlist := contestedCircuit.netlist } = .ok text r' ∧
          (r'.netlist.drivers 4).length = 2) ∧
      ∃ design r', Emit.buildDesign (.new contestedCircuit.catalog {})
        { netlist := contestedCircuit.netlist } = .ok design r' ∧
          (r'.netlist.drivers 4).length = 2 := by
  refine ⟨build_contestedDescription, ?_, ?_⟩
  · exact Emit.exists_of_succeeds (by decide +kernel) (by decide +kernel)
  · exact Emit.exists_of_succeeds (by decide +kernel) (by decide +kernel)

/-- The one pin that reads the net belongs to the adder. -/
theorem drivenOnce_contestedCircuit :
    contestedDescription.build = .ok contestedCircuit ∧
      (∃ text r', Emit.writeBlif (.new contestedCircuit.catalog {})
        { netlist := contestedCircuit.netlist } = .ok text r' ∧ r'.netlist.DrivenOnce) ∧
      ∃ design r', Emit.buildDesign (.new contestedCircuit.catalog {})
        { netlist := contestedCircuit.netlist } = .ok design r' ∧ r'.netlist.DrivenOnce := by
  have hr : Run.netlist { netlist := contestedCircuit.netlist } = contestedCircuit.netlist := by
    dsimp only
  have hwritten := drivenOnce_of_written build_contestedDescription
    (.new contestedCircuit.catalog {}) hr
  refine ⟨build_contestedDescription, ?_, ?_⟩
  · have hsucceeds : Emit.succeeds (Emit.writeBlif (.new contestedCircuit.catalog {}))
        { netlist := contestedCircuit.netlist } = true := by decide +kernel
    obtain ⟨text, r', h⟩ := Emit.succeeds_iff.mp hsucceeds
    exact ⟨text, r', h, hwritten.1 text r' h⟩
  · have hsucceeds : Emit.succeeds (Emit.buildDesign (.new contestedCircuit.catalog {}))
        { netlist := contestedCircuit.netlist } = true := by decide +kernel
    obtain ⟨design, r', h⟩ := Emit.succeeds_iff.mp hsucceeds
    exact ⟨design, r', h, hwritten.2 design r' h⟩

end CircuitLowering
