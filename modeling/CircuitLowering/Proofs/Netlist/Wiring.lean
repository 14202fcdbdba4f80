import CircuitLowering.Netlist.Slots
import CircuitLowering.Proofs.Queries
import Mathlib.Algebra.Ring.Nat

/-!
# The wiring of a netlist

Nodes, pins and nets refer to each other from both ends: a pin names its node and its net, and the
node and the net list the pin.  `Netlist.CrossReferenced` says that both ends agree.  This file
reads the two ends off as total functions, says what each elementary operation does to them, and
concludes that each one keeps them in agreement.

Names of pins, parameters and marks have no part in the wiring.  `Netlist.graph` leaves them out,
so whatever keeps the graph keeps everything that is said about it.
-/

namespace CircuitLowering

open Netlist

/-! ### Lists of pins on one side -/

namespace Node

def pins (n : Node) : Direction → List PinId
  | .input => n.inputs
  | .output => n.outputs

def sizes (n : Node) : Direction → List Nat
  | .input => n.inputSizes
  | .output => n.outputSizes

theorem pins_addPort (n : Node) (ids : List PinId) (d d' : Direction) :
    (n.addPort ids d).pins d' = if d' = d then n.pins d' ++ ids else n.pins d' := by
  cases d <;> cases d' <;> rfl

theorem sizes_addPort (n : Node) (ids : List PinId) (d d' : Direction) :
    (n.addPort ids d).sizes d' = if d' = d then n.sizes d' ++ [ids.length] else n.sizes d' := by
  cases d <;> cases d' <;> rfl

end Node

namespace Net

theorem count_pins_attach (n : Net) (pin id : PinId) (d d' : Direction) :
    ((n.attach pin d).pins d').count id =
      (n.pins d').count id + if d' = d ∧ id = pin then 1 else 0 := by
  have happend (l : List PinId) : (l ++ [pin]).count id = l.count id + if id = pin then 1 else 0 := by
    rw [List.count_append, List.count_singleton]
    by_cases h : id = pin
    · simp [h]
    · simp [h, Ne.symm h]
  cases d <;> cases d' <;> simp [attach, pins, happend]

theorem count_pins_detach (n : Net) (pin id : PinId) (d d' : Direction) :
    ((n.detach pin d).pins d').count id =
      if d' = d ∧ id = pin then 0 else (n.pins d').count id := by
  have hfilter (l : List PinId) :
      (l.filter (· ≠ pin)).count id = if id = pin then 0 else l.count id := by
    split
    · next h => subst h; simp [List.count_eq_zero]
    · next h => exact List.count_filter (by simpa using h)
  cases d <;> cases d' <;> simp only [detach, pins, hfilter, true_and, false_and, if_false,
    reduceCtorEq]

end Net

/-! ### The two ends of a reference -/

namespace Netlist

/-- The pins that a node lists; none for a number without node. -/
def pinsOfNode (nl : Netlist) (k : NodeId) (d : Direction) : List PinId :=
  (nl.nodes[k]?.map (·.pins d)).getD []

/-- The port sizes of a node; none for a number without node. -/
def sizesOfNode (nl : Netlist) (k : NodeId) (d : Direction) : List Nat :=
  (nl.nodes[k]?.map (·.sizes d)).getD []

/-- The pins that a net lists; none for a number without net. -/
def pinsOfNet (nl : Netlist) (w : NetId) (d : Direction) : List PinId :=
  (nl.nets[w]?.map (·.pins d)).getD []

def belongs (nl : Netlist) (id : PinId) (k : NodeId) (d : Direction) : Bool :=
  nl.pins[id]?.any fun p => p.node = k ∧ p.direction = d

def joins (nl : Netlist) (id : PinId) (w : NetId) (d : Direction) : Bool :=
  nl.pins[id]?.any fun p => p.net = some w ∧ p.direction = d

/-- Both ends of each reference agree.  Numbers without node, pin or net count as ends that refer
to nothing, so the agreement also says that no reference is dangling. -/
structure CrossReferenced (nl : Netlist) : Prop where
  /-- A node has as many pins as its port sizes add up to. -/
  sized : ∀ k d, (nl.pinsOfNode k d).length = (nl.sizesOfNode k d).sum
  /-- A pin stands once in the list of its direction at the node that it names and nowhere else
  among the lists of nodes. -/
  placed : ∀ k d id, (nl.pinsOfNode k d).count id = if nl.belongs id k d then 1 else 0
  /-- A pin stands once in the list of its direction at the net that it names, if it names one,
  and nowhere else among the lists of nets. -/
  attached : ∀ w d id, (nl.pinsOfNet w d).count id = if nl.joins id w d then 1 else 0

/-- What is left of a netlist without the names of pins and the parameters and marks of nodes. -/
def graph (nl : Netlist) : Netlist :=
  { nl with
    nodes := nl.nodes.map ({ · with params := .empty, mark := 0 })
    pins := nl.pins.map ({ · with name := none }) }

/-! ### Looking up -/

theorem node_eq_ok_iff {nl : Netlist} {k : NodeId} {n : Node} :
    nl.node k = .ok n ↔ nl.nodes[k]? = some n := by
  unfold node
  split <;> simp_all

theorem pin_eq_ok_iff {nl : Netlist} {id : PinId} {p : Pin} :
    nl.pin id = .ok p ↔ nl.pins[id]? = some p := by
  unfold pin
  split <;> simp_all

theorem net_eq_ok_iff {nl : Netlist} {w : NetId} {n : Net} :
    nl.net w = .ok n ↔ nl.nets[w]? = some n := by
  unfold net
  split <;> simp_all

/-! ### What depends on the graph alone -/

section Graph

variable {nl nl' : Netlist}

theorem pinsOfNode_graph (nl : Netlist) : nl.graph.pinsOfNode = nl.pinsOfNode := by
  funext k d
  simp only [pinsOfNode, graph, Array.getElem?_map]
  cases nl.nodes[k]? <;> cases d <;> rfl

theorem sizesOfNode_graph (nl : Netlist) : nl.graph.sizesOfNode = nl.sizesOfNode := by
  funext k d
  simp only [sizesOfNode, graph, Array.getElem?_map]
  cases nl.nodes[k]? <;> cases d <;> rfl

theorem belongs_graph (nl : Netlist) : nl.graph.belongs = nl.belongs := by
  funext id k d
  simp only [belongs, graph, Array.getElem?_map]
  cases nl.pins[id]? <;> rfl

theorem joins_graph (nl : Netlist) : nl.graph.joins = nl.joins := by
  funext id w d
  simp only [joins, graph, Array.getElem?_map]
  cases nl.pins[id]? <;> rfl

theorem pinsOfNet_graph (nl : Netlist) : nl.graph.pinsOfNet = nl.pinsOfNet := rfl

theorem crossReferenced_graph (nl : Netlist) : nl.graph.CrossReferenced ↔ nl.CrossReferenced := by
  constructor
  · intro h
    rcases h with ⟨hsized, hplaced, hattached⟩
    exact ⟨by simpa only [pinsOfNode_graph, sizesOfNode_graph] using hsized,
      by simpa only [pinsOfNode_graph, belongs_graph] using hplaced,
      by simpa only [pinsOfNet_graph, joins_graph] using hattached⟩
  · intro h
    rcases h with ⟨hsized, hplaced, hattached⟩
    exact ⟨by simpa only [pinsOfNode_graph, sizesOfNode_graph] using hsized,
      by simpa only [pinsOfNode_graph, belongs_graph] using hplaced,
      by simpa only [pinsOfNet_graph, joins_graph] using hattached⟩

/-- Netlists of one graph are cross-referenced together. -/
theorem CrossReferenced.of_graph (hnl : nl.CrossReferenced) (h : nl'.graph = nl.graph) :
    nl'.CrossReferenced := by
  rw [← crossReferenced_graph, h]
  exact (crossReferenced_graph nl).mpr hnl

end Graph

/-! ### What agreement gives -/

section Agreement

variable {nl : Netlist} {k : NodeId} {n : Node} (d : Direction)

theorem CrossReferenced.length_pins (hnl : nl.CrossReferenced) (hn : nl.nodes[k]? = some n) :
    (n.pins d).length = (n.sizes d).sum := by
  simpa only [pinsOfNode, sizesOfNode, hn, Option.map_some, Option.getD_some] using hnl.sized k d

/-- The lists of nodes and nets hold the pins that name them. -/
theorem CrossReferenced.mem_pinsOfNode (hnl : nl.CrossReferenced) {id : PinId} :
    id ∈ nl.pinsOfNode k d ↔ ∃ p, nl.pins[id]? = some p ∧ p.node = k ∧ p.direction = d := by
  have hbelongs : nl.belongs id k d = true ↔ _ := Option.any_eq_true ..
  rw [← List.count_pos_iff, hnl.placed]
  split
  · next h => simpa using hbelongs.mp h
  · next h => simpa using fun p hp hnode hd => h (hbelongs.mpr ⟨p, hp, by simp [hnode, hd]⟩)

/-- A pin that a node lists names the node and has the direction of the list. -/
theorem CrossReferenced.pin_of_mem (hnl : nl.CrossReferenced) (hn : nl.nodes[k]? = some n)
    {id : PinId} (hid : id ∈ n.pins d) :
    ∃ p, nl.pins[id]? = some p ∧ p.node = k ∧ p.direction = d := by
  rw [← hnl.mem_pinsOfNode d, pinsOfNode, hn]
  exact hid

theorem CrossReferenced.mem_pinsOfNet (hnl : nl.CrossReferenced) {w : NetId} {id : PinId} :
    id ∈ nl.pinsOfNet w d ↔ ∃ p, nl.pins[id]? = some p ∧ p.net = some w ∧ p.direction = d := by
  have hjoins : nl.joins id w d = true ↔ _ := Option.any_eq_true ..
  rw [← List.count_pos_iff, hnl.attached]
  split
  · next h => simpa using hjoins.mp h
  · next h => simpa using fun p hp hnet hd => h (hjoins.mpr ⟨p, hp, by simp [hnet, hd]⟩)

end Agreement

/-! No reference is dangling, so what is told of a pin by its references can be told. -/

section References

variable {nl : Netlist} {id : PinId} {p : Pin}

theorem CrossReferenced.net_of_pin (hnl : nl.CrossReferenced) (hp : nl.pins[id]? = some p)
    {w : NetId} (hw : p.net = some w) : w < nl.nets.size := by
  have hattached := hnl.attached w p.direction id
  rw [joins, hp, Option.any_some, if_pos (by simp [hw])] at hattached
  by_contra hge
  rw [pinsOfNet, Array.getElem?_eq_none (Nat.not_lt.mp hge)] at hattached
  exact absurd hattached (by simp)

theorem CrossReferenced.node_of_pin (hnl : nl.CrossReferenced) (hp : nl.pins[id]? = some p) :
    ∃ n, nl.nodes[p.node]? = some n := by
  have hplaced := hnl.placed p.node p.direction id
  rw [belongs, hp, Option.any_some, if_pos (by simp)] at hplaced
  cases hn : nl.nodes[p.node]? with
  | some n => exact ⟨n, rfl⟩
  | none =>
    rw [pinsOfNode, hn] at hplaced
    exact absurd hplaced (by simp)

theorem CrossReferenced.exists_pinLabel (hnl : nl.CrossReferenced) (hp : nl.pins[id]? = some p) :
    ∃ label, nl.pinLabel id = .ok label := by
  obtain ⟨n, hn⟩ := hnl.node_of_pin hp
  have hnode := node_eq_ok_iff.mpr hn
  cases hname : p.name with
  | none =>
    refine ⟨n.name ++ "." ++ p.mapping, bind_eq_ok_iff.mpr ⟨p, pin_eq_ok_iff.mpr hp, ?_⟩⟩
    rw [hname]
    exact bind_eq_ok_iff.mpr ⟨n, hnode, rfl⟩
  | some name =>
    refine ⟨name, bind_eq_ok_iff.mpr ⟨p, pin_eq_ok_iff.mpr hp, ?_⟩⟩
    rw [hname]
    rfl

theorem CrossReferenced.exists_driverName (hnl : nl.CrossReferenced)
    (hp : nl.pins[id]? = some p) : ∃ name, nl.driverName id = .ok name := by
  obtain ⟨n, hn⟩ := hnl.node_of_pin hp
  have hnode := node_eq_ok_iff.mpr hn
  cases hname : p.name with
  | none =>
    refine ⟨n.name, bind_eq_ok_iff.mpr ⟨p, pin_eq_ok_iff.mpr hp, ?_⟩⟩
    rw [hname]
    exact bind_eq_ok_iff.mpr ⟨n, hnode, rfl⟩
  | some name =>
    refine ⟨name, bind_eq_ok_iff.mpr ⟨p, pin_eq_ok_iff.mpr hp, ?_⟩⟩
    rw [hname]
    rfl

end References

/-! ### Operations that keep the graph -/

section Naming

variable (nl : Netlist)

theorem graph_modifyPin (id : PinId) (f : Pin → Pin)
    (hf : ∀ p, { f p with name := none } = { p with name := none }) :
    { nl with pins := nl.pins.modify id f }.graph = nl.graph := by
  have hpins : (nl.pins.modify id f).map (fun p : Pin => { p with name := none })
      = nl.pins.map fun p => { p with name := none } := by
    apply Array.ext_getElem?
    intro j
    simp only [Array.getElem?_map, Array.getElem?_modify]
    split
    · cases nl.pins[j]? with
      | none => rfl
      | some p => exact congrArg some (hf p)
    · rfl
  simp only [graph, hpins]

theorem graph_modifyNode (k : NodeId) (f : Node → Node)
    (hf : ∀ n, { f n with params := .empty, mark := 0 } = { n with params := .empty, mark := 0 }) :
    { nl with nodes := nl.nodes.modify k f }.graph = nl.graph := by
  have hnodes : (nl.nodes.modify k f).map (fun n : Node => { n with params := .empty, mark := 0 })
      = nl.nodes.map fun n => { n with params := .empty, mark := 0 } := by
    apply Array.ext_getElem?
    intro j
    simp only [Array.getElem?_map, Array.getElem?_modify]
    split
    · cases nl.nodes[j]? with
      | none => rfl
      | some n => exact congrArg some (hf n)
    · rfl
  simp only [graph, hnodes]

@[simp] theorem graph_setPinName (id : PinId) (name : Option String) :
    (nl.setPinName id name).graph = nl.graph :=
  nl.graph_modifyPin id _ fun _ => rfl

@[simp] theorem graph_setParam (k : NodeId) (name : String) (value : Param) :
    (nl.setParam k name value).graph = nl.graph :=
  nl.graph_modifyNode k _ fun _ => rfl

@[simp] theorem graph_setMark (k : NodeId) (mark : UInt16) :
    (nl.setMark k mark).graph = nl.graph :=
  nl.graph_modifyNode k _ fun _ => rfl

@[simp] theorem graph_nameSlot (node : String) (slot : Slot) :
    (nl.nameSlot node slot).graph = nl.graph :=
  nl.graph_modifyPin slot.pin _ fun _ => rfl

theorem graph_foldl_nameSlot (node : String) (slots : List Slot) :
    (slots.foldl (nameSlot node) nl).graph = nl.graph := by
  induction slots generalizing nl with
  | nil => rfl
  | cons slot slots ih => rw [List.foldl_cons, ih, graph_nameSlot]

/-- Naming the outputs of a node and marking it keeps the graph. -/
@[simp] theorem graph_instantiate (k : NodeId) (mark : UInt16) :
    (nl.instantiate k mark).graph = nl.graph := by
  unfold instantiate
  split
  · rfl
  · rw [graph_setMark, graph_foldl_nameSlot]

@[simp] theorem graph_instantiateAll (mark : UInt16) :
    (nl.instantiateAll mark).graph = nl.graph := by
  unfold instantiateAll
  generalize nl.primitiveIds = ids
  induction ids generalizing nl with
  | nil => rfl
  | cons id ids ih => rw [List.foldl_cons, ih, graph_instantiate]

end Naming

/-! ### Adding nodes, nets and ports -/

section Adding

variable (nl : Netlist)

theorem pinsOfNode_addNode (name : String) (kind : NodeKind) :
    (nl.addNode name kind).2.pinsOfNode = nl.pinsOfNode := by
  funext k d
  simp only [pinsOfNode, addNode, Array.getElem?_push]
  split
  · next h => cases d <;> simp [h, Node.pins]
  · rfl

theorem sizesOfNode_addNode (name : String) (kind : NodeKind) :
    (nl.addNode name kind).2.sizesOfNode = nl.sizesOfNode := by
  funext k d
  simp only [sizesOfNode, addNode, Array.getElem?_push]
  split
  · next h => cases d <;> simp [h, Node.sizes]
  · rfl

theorem pinsOfNet_addNet (name : Option String) :
    (nl.addNet name).2.pinsOfNet = nl.pinsOfNet := by
  funext w d
  simp only [pinsOfNet, addNet, Array.getElem?_push]
  split
  · next h => cases d <;> simp [h, Net.pins]
  · rfl

/-- A new node lists no pin and no pin names it. -/
theorem CrossReferenced.addNode (hnl : nl.CrossReferenced) (name : String) (kind : NodeKind) :
    (nl.addNode name kind).2.CrossReferenced := by
  refine ⟨?_, ?_, hnl.attached⟩
  · rw [pinsOfNode_addNode, sizesOfNode_addNode]
    exact hnl.sized
  · rw [pinsOfNode_addNode]
    exact hnl.placed

/-- A new net lists no pin and no pin names it. -/
theorem CrossReferenced.addNet (hnl : nl.CrossReferenced) (name : Option String) :
    (nl.addNet name).2.CrossReferenced := by
  refine ⟨hnl.sized, hnl.placed, ?_⟩
  rw [pinsOfNet_addNet]
  exact hnl.attached

variable (node : NodeId) (mapping : String) (size : Nat) (direction : Direction)

theorem pinsOfNode_attachPort (hnode : node < nl.nodes.size) (k : NodeId) (d : Direction) :
    (nl.attachPort node mapping size direction).2.pinsOfNode k d =
      if k = node ∧ d = direction then nl.pinsOfNode k d ++ List.range' nl.pins.size size
      else nl.pinsOfNode k d := by
  simp only [pinsOfNode, attachPort, Array.getElem?_modify]
  by_cases hk : node = k
  · subst hk
    simp only [if_true, Array.getElem?_eq_getElem hnode, Option.map_some, Option.getD_some,
      Node.pins_addPort, true_and]
  · simp only [hk, Ne.symm hk, if_false, false_and]

theorem sizesOfNode_attachPort (hnode : node < nl.nodes.size) (k : NodeId) (d : Direction) :
    (nl.attachPort node mapping size direction).2.sizesOfNode k d =
      if k = node ∧ d = direction then nl.sizesOfNode k d ++ [size] else nl.sizesOfNode k d := by
  simp only [sizesOfNode, attachPort, Array.getElem?_modify]
  by_cases hk : node = k
  · subst hk
    simp only [if_true, Array.getElem?_eq_getElem hnode, Option.map_some, Option.getD_some,
      Node.sizes_addPort, true_and, List.length_range']
  · simp only [hk, Ne.symm hk, if_false, false_and]

theorem getElem?_pins_attachPort (id : Nat) :
    (nl.attachPort node mapping size direction).2.pins[id]? =
      if id < nl.pins.size then nl.pins[id]?
      else if id < nl.pins.size + size then some { mapping, direction, node } else none := by
  simp only [attachPort, Array.getElem?_append, Array.getElem?_replicate]
  by_cases hid : id < nl.pins.size
  · simp only [hid, if_true]
  · have hsub : id - nl.pins.size < size ↔ id < nl.pins.size + size := by omega
    simp only [hid, if_false, hsub]

theorem belongs_attachPort (id : Nat) (k : NodeId) (d : Direction) :
    (nl.attachPort node mapping size direction).2.belongs id k d =
      if nl.pins.size ≤ id ∧ id < nl.pins.size + size then decide (k = node ∧ d = direction)
      else nl.belongs id k d := by
  simp only [belongs, getElem?_pins_attachPort]
  by_cases hid : id < nl.pins.size
  · simp [hid, Nat.not_le.mpr hid]
  · by_cases hnew : id < nl.pins.size + size
    · simp [hid, hnew, Nat.not_lt.mp hid, eq_comm]
    · simp [hid, hnew]

theorem joins_attachPort (id : Nat) (w : NetId) (d : Direction) :
    (nl.attachPort node mapping size direction).2.joins id w d = nl.joins id w d := by
  simp only [joins, getElem?_pins_attachPort]
  by_cases hid : id < nl.pins.size
  · simp [hid]
  · by_cases hnew : id < nl.pins.size + size <;> simp [hid, hnew]

/-- The pins of a new port belong to its node and to no net. -/
theorem CrossReferenced.attachPort (hnl : nl.CrossReferenced) (hnode : node < nl.nodes.size) :
    (nl.attachPort node mapping size direction).2.CrossReferenced := by
  constructor
  · intro k d
    rw [nl.pinsOfNode_attachPort node mapping size direction hnode,
      nl.sizesOfNode_attachPort node mapping size direction hnode]
    split
    · simp [hnl.sized k d]
    · exact hnl.sized k d
  · intro k d id
    rw [nl.pinsOfNode_attachPort node mapping size direction hnode, belongs_attachPort]
    have hrange : (List.range' nl.pins.size size).count id =
        if nl.pins.size ≤ id ∧ id < nl.pins.size + size then 1 else 0 := by
      have hnodup : (List.range' nl.pins.size size).Nodup := List.nodup_range' 1
      simp only [hnodup.count, List.mem_range'_1]
    have hbelongs : nl.pins.size ≤ id → nl.belongs id k d = false := by
      intro hid
      simp [belongs, Array.getElem?_eq_none hid]
    have hold := hnl.placed k d id
    by_cases hnew : nl.pins.size ≤ id ∧ id < nl.pins.size + size
    · rw [hbelongs hnew.1] at hold
      by_cases hhere : k = node ∧ d = direction
      · simp [hhere.1, hhere.2, hrange, hnew, hhere.1 ▸ hhere.2 ▸ hold]
      · simp [hhere, hnew, hold]
    · by_cases hhere : k = node ∧ d = direction
      · simp only [hhere, hrange, hnew, if_false, if_true, List.count_append, and_self]
        simpa [hhere.1, hhere.2] using hold
      · simp only [hhere, hnew, if_false]
        exact hold
  · intro w d id
    rw [joins_attachPort]
    exact hnl.attached w d id

end Adding

/-! ### Connecting -/

section Connecting

variable (nl : Netlist) (net : NetId) (pin : PinId)

@[simp] theorem nodes_connect : (nl.connect net pin).nodes = nl.nodes := by
  unfold connect
  split <;> rfl

theorem getElem?_pins_connect (id : PinId) :
    (nl.connect net pin).pins[id]? =
      if id = pin then (nl.pins[id]?).map ({ · with net := some net }) else nl.pins[id]? := by
  unfold connect
  split
  · next hpin =>
    split
    · next h => simp [h, hpin]
    · rfl
  · simp only [Array.getElem?_modify, eq_comm]

@[simp] theorem size_nets_connect : (nl.connect net pin).nets.size = nl.nets.size := by
  unfold connect
  split
  · rfl
  · split <;> simp

theorem belongs_connect (id : PinId) (k : NodeId) (d : Direction) :
    (nl.connect net pin).belongs id k d = nl.belongs id k d := by
  simp only [belongs, getElem?_pins_connect]
  split
  · cases nl.pins[id]? <;> rfl
  · rfl

theorem joins_connect (id : PinId) (w : NetId) (d : Direction) :
    (nl.connect net pin).joins id w d =
      if id = pin then decide (w = net) && (nl.pins[id]?.any (·.direction = d))
      else nl.joins id w d := by
  simp only [joins, getElem?_pins_connect]
  split
  · cases nl.pins[id]? with
    | none => simp
    | some p => simp [eq_comm]
  · rfl

/-- The nets of a netlist whose pin `pin` has left its net. -/
theorem count_pinsOfNet_connect {p : Pin} (hpin : nl.pins[pin]? = some p)
    (hnet : net < nl.nets.size) (w : NetId) (d : Direction) (id : PinId) :
    ((nl.connect net pin).pinsOfNet w d).count id =
      (if d = p.direction ∧ id = pin ∧ p.net = some w then 0 else (nl.pinsOfNet w d).count id)
        + if w = net ∧ d = p.direction ∧ id = pin then 1 else 0 := by
  have hleft (nets : Array Net) (hsize : nets.size = nl.nets.size) :
      ((((nets.modify net (·.attach pin p.direction))[w]?).map (·.pins d)).getD []).count id =
        (((nets[w]?).map (·.pins d)).getD []).count id
          + if w = net ∧ d = p.direction ∧ id = pin then 1 else 0 := by
    rw [Array.getElem?_modify]
    by_cases hw : net = w
    · subst hw
      rw [Array.getElem?_eq_getElem (hsize ▸ hnet)]
      simp [Net.count_pins_attach]
    · simp [hw, Ne.symm hw]
  simp only [pinsOfNet, connect, hpin]
  cases hold : p.net with
  | none => simp [hleft nl.nets rfl]
  | some old =>
    rw [hleft _ (by simp), Array.getElem?_modify]
    by_cases hw : old = w
    · subst hw
      cases nl.nets[old]? with
      | none => simp
      | some n => simp [Net.count_pins_detach]
    · simp [hw]

/-- A pin that moves to a net that exists leaves its old net, which may be the same one. -/
theorem CrossReferenced.connect (hnl : nl.CrossReferenced) (hnet : net < nl.nets.size) :
    (nl.connect net pin).CrossReferenced := by
  constructor
  · intro k d
    simpa only [pinsOfNode, sizesOfNode, nodes_connect] using hnl.sized k d
  · intro k d id
    simpa only [pinsOfNode, belongs_connect, nodes_connect] using hnl.placed k d id
  · intro w d id
    cases hpin : nl.pins[pin]? with
    | none => simpa only [Netlist.connect, hpin] using hnl.attached w d id
    | some p =>
      rw [nl.count_pinsOfNet_connect net pin hpin hnet, joins_connect, hnl.attached]
      by_cases hid : id = pin
      · subst hid
        simp only [joins, hpin, Option.any_some]
        grind
      · simp [hid]

end Connecting

/-- A checked connection is made where the pin has the direction and the net exists. -/
theorem connectAs_eq_ok_iff {nl nl' : Netlist} {d : Direction} {net : NetId} {pin : PinId} :
    connectAs d nl net pin = .ok nl' ↔
      (∃ p, nl.pins[pin]? = some p ∧ p.direction = d) ∧ net < nl.nets.size ∧
        nl' = nl.connect net pin := by
  have hnet : (∃ n, nl.net net = .ok n) ↔ net < nl.nets.size := by
    simp only [net_eq_ok_iff, ← Option.isSome_iff_exists, isSome_getElem?]
  unfold connectAs
  rw [bind_eq_ok_iff]
  constructor
  · intro h
    rcases h with ⟨p, hp, h⟩
    split at h
    · cases h
    · next hd =>
      obtain ⟨_, hn, h⟩ := bind_eq_ok_iff.mp h
      cases h
      exact ⟨⟨p, pin_eq_ok_iff.mp hp, Decidable.of_not_not hd⟩,
        hnet.mp (discard_eq_ok_iff.mp hn), rfl⟩
  · intro h
    rcases h with ⟨⟨p, hp, hd⟩, hn, rfl⟩
    refine ⟨p, pin_eq_ok_iff.mpr hp, ?_⟩
    rw [if_neg (not_not_intro hd)]
    exact bind_eq_ok_iff.mpr ⟨(), discard_eq_ok_iff.mpr (hnet.mpr hn), rfl⟩

/-! ### The boundary and the constants -/

section Boundary

variable {nl : Netlist}

/-- A new node with a pin that drives a new net. -/
theorem CrossReferenced.addSource (hnl : nl.CrossReferenced) (name : String) (kind : NodeKind) :
    (nl.addSource name kind).2.2.CrossReferenced := by
  have hnode := (hnl.addNode nl name kind).addNet _ (some name)
  have hport := hnode.attachPort _ nl.nodes.size name 1 .output
    (by simp [Netlist.addNode, Netlist.addNet])
  simp only [Netlist.addSource, Netlist.addNode, Netlist.addNet, Netlist.attachPort, List.range'_one,
    List.foldl_cons, List.foldl_nil] at hport ⊢
  refine CrossReferenced.connect _ _ _ ?_ (by simp [setPinName])
  exact hport.of_graph (graph_setPinName _ _ _)

theorem CrossReferenced.withBoundary (hnl : nl.CrossReferenced)
    (topInputs topOutputs : List NodeId) : { nl with topInputs, topOutputs }.CrossReferenced :=
  ⟨hnl.sized, hnl.placed, hnl.attached⟩

theorem CrossReferenced.addTopInput (hnl : nl.CrossReferenced) (name : String) :
    (nl.addTopInput name).2.CrossReferenced :=
  (hnl.addSource name .input).withBoundary _ _

/-- A new node with a pin that reads a net that exists. -/
theorem CrossReferenced.attachTopOutput (hnl : nl.CrossReferenced) (name : String) {net : NetId}
    (hnet : net < nl.nets.size) : (nl.attachTopOutput name net).2.CrossReferenced := by
  have hnode := hnl.addNode nl name .output
  have hport := hnode.attachPort _ nl.nodes.size name 1 .input (by simp [Netlist.addNode])
  exact (hport.connect _ net nl.pins.size hnet).withBoundary _ _

theorem crossReferenced_empty : ({} : Netlist).CrossReferenced :=
  ⟨fun k d => by simp [pinsOfNode, sizesOfNode], fun k d id => by simp [pinsOfNode, belongs],
    fun w d id => by simp [pinsOfNet, joins]⟩

/-- The constant nets are joined to their nodes from the start. -/
theorem crossReferenced_initial : initial.CrossReferenced := by
  have hpad := ((crossReferenced_empty.addSource groundName .ground).addSource powerName
    .power).addSource padName .pad
  unfold initial
  -- the netlists in between are made opaque, since to compare them in full takes long
  generalize addSource {} groundName .ground = ground at hpad ⊢
  obtain ⟨_, _, nl⟩ := ground
  dsimp only at hpad ⊢
  generalize nl.addSource powerName .power = power at hpad ⊢
  obtain ⟨_, _, nl⟩ := power
  exact hpad

end Boundary

end Netlist

end CircuitLowering
