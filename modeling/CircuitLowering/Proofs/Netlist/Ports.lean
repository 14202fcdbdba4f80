import CircuitLowering.Proofs.Netlist.Operations

/-!
# Ports of nodes

A node has its pins in one list and the sizes of its ports in another, and each pin has the label of
its port.  `Netlist.HasPorts` puts these together: it says that the pins of one side of a node are
those of a list of ports, each with one label.  The names under which a port binds its pins follow
from the port alone (`map_bindingName_cut`).

Ports come only by being attached, and no operation moves a pin from port to port.  So every node that
a caller can build has its ports (`Netlist.ported_of_run`).
-/

namespace CircuitLowering

/-- A port of a node: its label and its pins, in their order. -/
structure NodePort where
  label : String
  pins : List PinId
deriving DecidableEq, Repr

namespace NodePort

/-- The slots of the pins, when the port is the one of number `number`. -/
def slots (number : Nat) (port : NodePort) : List Slot :=
  port.pins.zipIdx.map fun (pin, index) =>
    { pin, port := number, index, portSize := port.pins.length }

def bindings (port : NodePort) : List (String × PinId) :=
  match port.pins with
  | [pin] => [(port.label, pin)]
  | pins => pins.zipIdx.map fun (pin, index) => (Text.Subscript.join port.label index, pin)

end NodePort

namespace Netlist

def mapping? (nl : Netlist) (id : PinId) : Option String := nl.pins[id]?.map (·.mapping)

structure HasPorts (nl : Netlist) (k : NodeId) (d : Direction) (ports : List NodePort) : Prop where
  pins : nl.pinsOfNode k d = ports.flatMap (·.pins)
  sizes : nl.sizesOfNode k d = ports.map (·.pins.length)
  /-- The pins of a port have its label. -/
  labelled : ∀ port ∈ ports, ∀ id ∈ port.pins, nl.mapping? id = some port.label
  /-- The pins of a port fit memory. -/
  fits : ∀ port ∈ ports, Capacity.fits Capacity.numberBytes port.pins.length = true

def Ported (nl : Netlist) : Prop := ∀ k d, ∃ ports, nl.HasPorts k d ports

/-- The pins of a port have indices. -/
theorem HasPorts.short {nl : Netlist} {k : NodeId} {d : Direction} {ports : List NodePort}
    (h : nl.HasPorts k d ports) :
    ∀ port ∈ ports, port.pins.length < Text.Subscript.indexLimit := by
  intro port hport
  have hfits := Capacity.fits_iff.mp (h.fits port hport)
  have hlimits : Capacity.maxBytes < Capacity.numberBytes * Text.Subscript.indexLimit := by decide
  exact Nat.lt_of_mul_lt_mul_left (Nat.lt_of_le_of_lt hfits hlimits)

/-! ### Slots and names -/

/-- A list of pins is cut into the ports that it was put together from. -/
theorem cutFrom_ports (number : Nat) (ports : List NodePort) :
    Slot.cutFrom number (ports.flatMap (·.pins)) (ports.map (·.pins.length)) =
      (ports.zipIdx number).flatMap fun (port, number) => port.slots number := by
  induction ports generalizing number with
  | nil => rfl
  | cons port ports ih =>
    rw [List.flatMap_cons, List.map_cons, Slot.cutFrom, List.take_left, List.drop_left, ih,
      List.zipIdx_cons, List.flatMap_cons]
    rfl

/-- The name of a slot follows from the label of its port. -/
theorem map_bindingName_slots {nl : Netlist} {port : NodePort}
    (h : ∀ id ∈ port.pins, nl.mapping? id = some port.label) (number : Nat) :
    (port.slots number).map (fun slot =>
      (slot.bindingName ((nl.mapping? slot.pin).getD ""), slot.pin)) = port.bindings := by
  have hslot : ∀ pair ∈ port.pins.zipIdx, nl.mapping? pair.1 = some port.label := by
    intro pair hpair
    exact h pair.1 (List.fst_mem_of_mem_zipIdx hpair)
  have hnames (size : Nat) : (port.pins.zipIdx.map fun pair =>
        (Slot.bindingName ((nl.mapping? pair.1).getD "") ⟨pair.1, number, pair.2, size⟩, pair.1)) =
      port.pins.zipIdx.map fun pair =>
        (if size = 1 then port.label else Text.Subscript.join port.label pair.2, pair.1) := by
    apply List.map_congr_left
    intro pair hpair
    rw [hslot pair hpair]
    rfl
  unfold NodePort.slots NodePort.bindings
  rw [List.map_map]
  refine (hnames port.pins.length).trans ?_
  rcases port.pins with _ | ⟨pin, _ | ⟨second, rest⟩⟩
  · rfl
  · rfl
  · simp

/-- The slots of ports bind each port under its own names. -/
theorem map_bindingName_ports {nl : Netlist} {ports : List NodePort}
    (hlabelled : ∀ port ∈ ports, ∀ id ∈ port.pins, nl.mapping? id = some port.label) :
    (Slot.cut (ports.flatMap (·.pins)) (ports.map (·.pins.length))).map (fun slot =>
      (slot.bindingName ((nl.mapping? slot.pin).getD ""), slot.pin)) =
        ports.flatMap NodePort.bindings := by
  have hnumbered (number : Nat) : ((ports.zipIdx number).flatMap fun (port, number) =>
      port.slots number).map (fun slot =>
        (slot.bindingName ((nl.mapping? slot.pin).getD ""), slot.pin)) =
          ports.flatMap NodePort.bindings := by
    induction ports generalizing number with
    | nil => rfl
    | cons port ports ih =>
      rw [List.zipIdx_cons, List.flatMap_cons, List.map_append, List.flatMap_cons,
        map_bindingName_slots (hlabelled port List.mem_cons_self), ih]
      intro other hother
      exact hlabelled other (List.mem_cons_of_mem _ hother)
  rw [Slot.cut, cutFrom_ports]
  exact hnumbered 0

/-- The slots of a node bind each port under its own names. -/
theorem map_bindingName_cut {nl : Netlist} {k : NodeId} {d : Direction} {ports : List NodePort}
    (h : nl.HasPorts k d ports) :
    (Slot.cut (nl.pinsOfNode k d) (nl.sizesOfNode k d)).map (fun slot =>
      (slot.bindingName ((nl.mapping? slot.pin).getD ""), slot.pin)) =
        ports.flatMap NodePort.bindings := by
  rw [h.pins, h.sizes]
  exact map_bindingName_ports h.labelled

/-! ### What changes of a netlist keep -/

section Kept

variable {nl nl' : Netlist}

/-- Ports stay where the lists of nodes and the labels of pins stay. -/
theorem HasPorts.of_eq {k : NodeId} {d : Direction} {ports : List NodePort}
    (h : nl.HasPorts k d ports) (hpins : nl'.pinsOfNode k d = nl.pinsOfNode k d)
    (hsizes : nl'.sizesOfNode k d = nl.sizesOfNode k d)
    (hlabels : ∀ id label, nl.mapping? id = some label → nl'.mapping? id = some label) :
    nl'.HasPorts k d ports where
  pins := hpins.trans h.pins
  sizes := hsizes.trans h.sizes
  labelled port hport id hid := hlabels id _ (h.labelled port hport id hid)
  fits := h.fits

theorem Ported.of_eq (h : nl.Ported) (hpins : nl'.pinsOfNode = nl.pinsOfNode)
    (hsizes : nl'.sizesOfNode = nl.sizesOfNode)
    (hlabels : ∀ id label, nl.mapping? id = some label → nl'.mapping? id = some label) :
    nl'.Ported := by
  intro k d
  obtain ⟨ports, hports⟩ := h k d
  exact ⟨ports, hports.of_eq (congrFun (congrFun hpins k) d) (congrFun (congrFun hsizes k) d) hlabels⟩

theorem Ported.of_graph (h : nl.Ported) (hgraph : nl'.graph = nl.graph) : nl'.Ported := by
  have hpins : nl'.graph.pinsOfNode = nl.graph.pinsOfNode := by rw [hgraph]
  have hsizes : nl'.graph.sizesOfNode = nl.graph.sizesOfNode := by rw [hgraph]
  rw [pinsOfNode_graph, pinsOfNode_graph] at hpins
  rw [sizesOfNode_graph, sizesOfNode_graph] at hsizes
  refine h.of_eq hpins hsizes ?_
  intro id label hid
  exact (map_pins_of_graph hgraph (·.mapping) (fun _ => rfl) id).trans hid

theorem Ported.connect (h : nl.Ported) (net : NetId) (pin : PinId) :
    (nl.connect net pin).Ported := by
  refine h.of_eq ?_ ?_ ?_
  · funext k d
    simp only [pinsOfNode, nodes_connect]
  · funext k d
    simp only [sizesOfNode, nodes_connect]
  · intro id label hid
    rw [mapping?, getElem?_pins_connect]
    split
    · rw [Option.map_map]
      exact hid
    · exact hid

/-- A new port comes last on its side of its node. -/
theorem Ported.attachPort (h : nl.Ported) (node : NodeId) (mapping : String) (size : Nat)
    (direction : Direction) (hnode : node < nl.nodes.size)
    (hsize : Capacity.fits Capacity.numberBytes size = true) :
    (nl.attachPort node mapping size direction).2.Ported := by
  have hlabels : ∀ id label, nl.mapping? id = some label →
      (nl.attachPort node mapping size direction).2.mapping? id = some label := by
    intro id label hid
    have hold : id < nl.pins.size := by
      by_contra hge
      rw [mapping?, Array.getElem?_eq_none (Nat.not_lt.mp hge)] at hid
      cases hid
    rw [mapping?, getElem?_pins_attachPort, if_pos hold]
    exact hid
  intro k d
  obtain ⟨ports, hports⟩ := h k d
  have hpins := nl.pinsOfNode_attachPort node mapping size direction hnode k d
  have hsizes := nl.sizesOfNode_attachPort node mapping size direction hnode k d
  by_cases hhere : k = node ∧ d = direction
  · rw [if_pos hhere] at hpins hsizes
    refine ⟨ports ++ [⟨mapping, List.range' nl.pins.size size⟩], ?_, ?_, ?_, ?_⟩
    · rw [hpins, hports.pins]
      simp
    · rw [hsizes, hports.sizes]
      simp
    · intro port hport id hid
      rcases List.mem_append.mp hport with hport | hport
      · exact hlabels id _ (hports.labelled port hport id hid)
      · rw [List.mem_singleton] at hport
        subst hport
        have hid := List.mem_range'_1.mp hid
        rw [mapping?, getElem?_pins_attachPort, if_neg (Nat.not_lt.mpr hid.1), if_pos hid.2]
        rfl
    · intro port hport
      rcases List.mem_append.mp hport with hport | hport
      · exact hports.fits port hport
      · rw [List.mem_singleton] at hport
        subst hport
        rw [List.length_range']
        exact hsize
  · rw [if_neg hhere] at hpins hsizes
    exact ⟨ports, hports.of_eq hpins hsizes hlabels⟩

theorem Ported.addNode (h : nl.Ported) (name : String) (kind : NodeKind) :
    (nl.addNode name kind).2.Ported :=
  h.of_eq (nl.pinsOfNode_addNode name kind) (nl.sizesOfNode_addNode name kind) fun _ _ hid => hid

theorem Ported.addNet (h : nl.Ported) (name : Option String) : (nl.addNet name).2.Ported :=
  h.of_eq rfl rfl fun _ _ hid => hid

theorem Ported.addSource (h : nl.Ported) (name : String) (kind : NodeKind) :
    (nl.addSource name kind).2.2.Ported := by
  have hport := ((h.addNode name kind).addNet (some name)).attachPort nl.nodes.size name 1 .output
    (by simp [Netlist.addNode, Netlist.addNet]) (by decide)
  simp only [Netlist.addSource, Netlist.addNode, Netlist.addNet, Netlist.attachPort, List.range'_one,
    List.foldl_cons, List.foldl_nil] at hport ⊢
  exact (hport.of_graph (graph_setPinName _ _ _)).connect _ _

end Kept

theorem kept_ported : Kept fun nl => nl.Wired ∧ nl.Ported where
  ground hnl := kept_wired.ground hnl.1
  graph hnl h := ⟨kept_wired.graph hnl.1 h, hnl.2.of_graph h⟩
  boundary hnl topInputs topOutputs :=
    ⟨kept_wired.boundary hnl.1 topInputs topOutputs, hnl.2.of_eq rfl rfl fun _ _ hid => hid⟩
  addNode hnl name kind := ⟨kept_wired.addNode hnl.1 name kind, hnl.2.addNode name kind⟩
  addNet hnl name := ⟨kept_wired.addNet hnl.1 name, hnl.2.addNet name⟩
  attachPort hnl node mapping size direction hnode hsize :=
    ⟨kept_wired.attachPort hnl.1 node mapping size direction hnode hsize,
      hnl.2.attachPort node mapping size direction hnode hsize⟩
  connect hnl _ hnet pin := ⟨kept_wired.connect hnl.1 hnet pin, hnl.2.connect _ pin⟩

theorem ported_initial : initial.Ported := by
  have hempty : ({} : Netlist).Ported := fun k d =>
    ⟨[], by simp [pinsOfNode], by simp [sizesOfNode], by simp, by simp⟩
  have hpad := ((hempty.addSource groundName .ground).addSource powerName .power).addSource padName
    .pad
  unfold initial
  -- the netlists in between are made opaque, since to compare them in full takes long
  generalize addSource {} groundName .ground = ground at hpad ⊢
  obtain ⟨_, _, nl⟩ := ground
  dsimp only at hpad ⊢
  generalize nl.addSource powerName .power = power at hpad ⊢
  obtain ⟨_, _, nl⟩ := power
  exact hpad

/-- Whatever operations lead from the initial netlist to another one, in the netlist that they lead to
every node has its ports. -/
theorem ported_of_run {ops : List Operation} {nl : Netlist}
    (h : Operation.run initial ops = .ok nl) : nl.Ported :=
  (Operation.run_keeps kept_ported ⟨wired_initial, ported_initial⟩ h).2

end Netlist

end CircuitLowering
