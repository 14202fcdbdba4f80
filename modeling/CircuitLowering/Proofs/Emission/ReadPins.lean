import CircuitLowering.Proofs.Emission.Assembly

/-!
# What writing a circuit reads

`Netlist.readPins` lists the pins that a writer reads on its way through the circuit and
`Netlist.circuitError?` is the first thing that is wrong with what it comes to.  Both are matters of
the netlist alone, and naming outputs makes no difference to the list.
-/

namespace CircuitLowering

namespace Netlist

/-- The pins through which the given outputs of the circuit are read: the first input pin of each. -/
def outputPins (nl : Netlist) (ids : List NodeId) : List PinId :=
  ids.filterMap fun id => (nl.nodes[id]?).bind (·.inputs.head?)

/-- The pins that writing the circuit reads: the inputs of all primitives in the order of the nodes,
then those of the circuit's outputs. -/
def readPins (nl : Netlist) : List PinId :=
  nl.nodes.toList.flatMap Node.pinsRead ++ nl.outputPins nl.topOutputs

/-- Why the nodes and outputs of a circuit cannot be written, if they cannot. -/
def circuitError? (nl : Netlist) : Option EmitError :=
  (nl.nodes.toList.findSome? nl.nodeError?).or (nl.firstReadError? (nl.outputPins nl.topOutputs))

theorem outputPins_cons (nl : Netlist) (id : NodeId) (ids : List NodeId) :
    nl.outputPins (id :: ids)
      = ((nl.nodes[id]?).bind (·.inputs.head?)).toList ++ nl.outputPins ids := by
  unfold outputPins
  rw [List.filterMap_cons]
  cases (nl.nodes[id]?).bind (·.inputs.head?) <;> rfl

@[simp] theorem outputPins_tieAll (nl : Netlist) (ids : List PinId) (outputs : List NodeId) :
    (nl.tieAll ids).outputPins outputs = nl.outputPins outputs := by
  simp only [outputPins, nodes_tieAll]

theorem map_range_nodes (nl : Netlist) :
    (List.range nl.nodes.size).map (nl.nodes[·]?) = nl.nodes.toList.map some := by
  apply List.ext_getElem (by simp)
  intro i h _
  simp only [List.length_map, List.length_range] at h
  simp [h]

section ReadPins

variable {nl nl' : Netlist}

theorem readPins_graph (nl : Netlist) : nl.graph.readPins = nl.readPins := by
  have hpinsRead (n : Node) :
      Node.pinsRead { n with params := .empty, mark := 0 } = n.pinsRead := rfl
  have hnodes :
      nl.graph.nodes.toList.flatMap Node.pinsRead = nl.nodes.toList.flatMap Node.pinsRead := by
    simp only [graph, Array.toList_map, List.flatMap_map, hpinsRead]
  have houtputs (ids : List NodeId) : nl.graph.outputPins ids = nl.outputPins ids := by
    simp only [outputPins, graph, Array.getElem?_map, Option.bind_map, Function.comp_def]
  unfold readPins
  rw [hnodes, houtputs]
  rfl

theorem readPins_of_graph (h : nl'.graph = nl.graph) : nl'.readPins = nl.readPins := by
  rw [← readPins_graph, h, readPins_graph]

theorem mem_pinsRead {n : Node} {id : PinId} :
    id ∈ n.pinsRead ↔ n.kind.isPrimitive ∧ id ∈ n.inputs := by
  unfold Node.pinsRead
  split
  · next hkind => simp [hkind]
  · next hkind => simp [hkind]

theorem mem_readPins {id : PinId} :
    id ∈ nl.readPins ↔ (∃ n ∈ nl.nodes.toList, n.kind.isPrimitive ∧ id ∈ n.inputs) ∨
      id ∈ nl.outputPins nl.topOutputs := by
  simp only [readPins, List.mem_append, List.mem_flatMap, mem_pinsRead]

/-- The pins that are read are input pins of nodes. -/
theorem CrossReferenced.pin_of_mem_readPins (hnl : nl.CrossReferenced) {id : PinId}
    (hid : id ∈ nl.readPins) : ∃ p, nl.pins[id]? = some p ∧ p.direction = .input := by
  obtain ⟨k, n, hn, hid⟩ : ∃ (k : NodeId) (n : Node), nl.nodes[k]? = some n ∧ id ∈ n.inputs := by
    rcases mem_readPins.mp hid with ⟨n, hn, -, hid⟩ | houtput
    · obtain ⟨k, hk⟩ := List.mem_iff_getElem?.mp hn
      exact ⟨k, n, by rwa [Array.getElem?_toList] at hk, hid⟩
    · obtain ⟨k, -, hk⟩ := List.mem_filterMap.mp houtput
      obtain ⟨n, hn, hhead⟩ := Option.bind_eq_some_iff.mp hk
      exact ⟨k, n, hn, List.mem_of_mem_head? hhead⟩
  obtain ⟨p, hp, -, hinput⟩ := hnl.pin_of_mem .input hn hid
  exact ⟨p, hp, hinput⟩

/-- Nothing is wrong with a circuit where all primitives are well shaped and no pin that is read leads
to an error. -/
theorem circuitError?_eq_none_iff :
    nl.circuitError? = none ↔
      (∀ n ∈ nl.nodes.toList, n.kind.isPrimitive → n.shapeError? = none) ∧
        ∀ id ∈ nl.readPins, nl.readError? id = none := by
  have hnode (n : Node) : nl.nodeError? n = none ↔
      (n.kind.isPrimitive → n.shapeError? = none) ∧
        ∀ id ∈ n.pinsRead, nl.readError? id = none := by
    unfold nodeError? primitiveError? Node.pinsRead
    split
    · next hkind => simp [hkind, firstReadError?, Option.or_eq_none_iff]
    · next hkind => simp [hkind]
  rw [circuitError?, Option.or_eq_none_iff, List.findSome?_eq_none_iff, firstReadError?,
    List.findSome?_eq_none_iff]
  simp only [hnode, readPins, List.mem_append, List.mem_flatMap]
  constructor
  · intro h
    rcases h with ⟨hnodes, houtputs⟩
    refine ⟨fun n hn => (hnodes n hn).1, ?_⟩
    rintro id (⟨n, hn, hid⟩ | hid)
    · exact (hnodes n hn).2 id hid
    · exact houtputs id hid
  · intro h
    rcases h with ⟨hshape, hread⟩
    exact ⟨fun n hn => ⟨hshape n hn, fun id hid => hread id (Or.inl ⟨n, hn, hid⟩)⟩,
      fun id hid => hread id (Or.inr hid)⟩

end ReadPins

end Netlist

end CircuitLowering
