import CircuitLowering.Proofs.Netlist.Wiring

/-!
# Naming the outputs

Before a circuit is written, the outputs of all primitives are named and the primitives marked;
`InstantiatedAt` says that this has been done to a node.  To do it again, as the writers do when they
come to the node, changes nothing.  In a cross-referenced netlist the pins that get a name are output
pins, so input pins are as they were.
-/

namespace CircuitLowering

/-- Changing a place of an array to what it holds changes nothing. -/
theorem modify_eq_self {α : Type} {xs : Array α} {i : Nat} {f : α → α}
    (h : ∀ a, xs[i]? = some a → f a = a) : xs.modify i f = xs := by
  apply Array.ext_getElem?
  intro j
  rw [Array.getElem?_modify]
  split
  · next hij =>
    subst hij
    cases ha : xs[i]? with
    | none => rfl
    | some a => exact congrArg some (h a ha)
  · rfl

/-! ### The pins of slots -/

theorem Slot.map_pin_cutFrom (port : Nat) (pins : List PinId) (sizes : List Nat) :
    (cutFrom port pins sizes).map (·.pin) = pins.take sizes.sum := by
  induction sizes generalizing port pins with
  | nil => simp [cutFrom]
  | cons size sizes ih =>
    rw [cutFrom, List.map_append, List.map_map, ih, List.sum_cons, List.take_add]
    exact congrArg (· ++ _) (List.zipIdx_map_fst 0 (pins.take size))

/-- The pins that have a slot are the first ones, as many as the ports have room for. -/
theorem Slot.map_pin_cut (pins : List PinId) (sizes : List Nat) :
    (cut pins sizes).map (·.pin) = pins.take sizes.sum :=
  map_pin_cutFrom 0 pins sizes

namespace Node

theorem pin_mem_inputs {n : Node} {slot : Slot} (h : slot ∈ n.inputSlots) :
    slot.pin ∈ n.inputs := by
  have hslot : slot.pin ∈ n.inputSlots.map (·.pin) := List.mem_map_of_mem h
  rw [inputSlots, Slot.map_pin_cut] at hslot
  exact List.mem_of_mem_take hslot

theorem pin_mem_outputs {n : Node} {slot : Slot} (h : slot ∈ n.outputSlots) :
    slot.pin ∈ n.outputs := by
  have hslot : slot.pin ∈ n.outputSlots.map (·.pin) := List.mem_map_of_mem h
  rw [outputSlots, Slot.map_pin_cut] at hslot
  exact List.mem_of_mem_take hslot

/-- Where the ports have room for all pins, all of them have slots, in their order. -/
theorem map_pin_inputSlots {n : Node} (h : n.inputs.length = n.inputSizes.sum) :
    n.inputSlots.map (·.pin) = n.inputs := by
  rw [inputSlots, Slot.map_pin_cut, ← h, List.take_length]

theorem map_pin_outputSlots {n : Node} (h : n.outputs.length = n.outputSizes.sum) :
    n.outputSlots.map (·.pin) = n.outputs := by
  rw [outputSlots, Slot.map_pin_cut, ← h, List.take_length]

end Node

namespace Netlist

/-! ### What the graph tells -/

section Graph

variable {nl nl' : Netlist}

theorem map_nodes_of_graph (h : nl'.graph = nl.graph) {α : Type} (f : Node → α)
    (hf : ∀ n, f { n with params := .empty, mark := 0 } = f n) (k : Nat) :
    (nl'.nodes[k]?).map f = (nl.nodes[k]?).map f := by
  have hnode := congrArg (fun g : Netlist => (g.nodes[k]?).map f) h
  simpa only [graph, Array.getElem?_map, Option.map_map, Function.comp_def, hf] using hnode

theorem topInputs_of_graph (h : nl'.graph = nl.graph) : nl'.topInputs = nl.topInputs :=
  (congrArg Netlist.topInputs h : nl'.graph.topInputs = nl.graph.topInputs)

theorem topOutputs_of_graph (h : nl'.graph = nl.graph) : nl'.topOutputs = nl.topOutputs :=
  (congrArg Netlist.topOutputs h : nl'.graph.topOutputs = nl.graph.topOutputs)

theorem forall_nodes_of_graph (h : nl'.graph = nl.graph) {P : Node → Prop}
    (hP : ∀ n, P { n with params := .empty, mark := 0 } ↔ P n) :
    (∀ n ∈ nl'.nodes.toList, P n) ↔ ∀ n ∈ nl.nodes.toList, P n := by
  have hgraph (nl : Netlist) :
      (∀ n ∈ nl.graph.nodes.toList, P n) ↔ ∀ n ∈ nl.nodes.toList, P n := by
    simp only [graph, Array.toList_map, List.forall_mem_map, hP]
  rw [← hgraph nl', h, hgraph nl]

theorem exists_nodes_of_graph (h : nl'.graph = nl.graph) {P : Node → Prop}
    (hP : ∀ n, P { n with params := .empty, mark := 0 } ↔ P n) :
    (∃ n ∈ nl'.nodes.toList, P n) ↔ ∃ n ∈ nl.nodes.toList, P n := by
  have hgraph (nl : Netlist) :
      (∃ n ∈ nl.graph.nodes.toList, P n) ↔ ∃ n ∈ nl.nodes.toList, P n := by
    simp only [graph, Array.toList_map, List.mem_map, exists_exists_and_eq_and, hP]
  rw [← hgraph nl', h, hgraph nl]

theorem map_pins_of_graph (h : nl'.graph = nl.graph) {α : Type} (f : Pin → α)
    (hf : ∀ p, f { p with name := none } = f p) (j : Nat) :
    (nl'.pins[j]?).map f = (nl.pins[j]?).map f := by
  have hpin := congrArg (fun g : Netlist => (g.pins[j]?).map f) h
  simpa only [graph, Array.getElem?_map, Option.map_map, Function.comp_def, hf] using hpin

end Graph

/-! ### One node -/

def isNamed (nl : Netlist) (id : PinId) : Bool := nl.pins[id]?.all (·.name.isSome)

def InstantiatedAt (nl : Netlist) (mark : UInt16) (id : NodeId) : Prop :=
  ∀ n, nl.nodes[id]? = some n → n.mark = mark ∧ ∀ slot ∈ n.outputSlots, nl.isNamed slot.pin

section Instantiating

variable {nl : Netlist} {id k : NodeId} {mark : UInt16}

theorem nodes_foldl_nameSlot (nl : Netlist) (name : String) (slots : List Slot) :
    (slots.foldl (nameSlot name) nl).nodes = nl.nodes := by
  induction slots generalizing nl with
  | nil => rfl
  | cons slot slots ih => exact ih (nl.nameSlot name slot)

theorem getElem?_pins_nameSlot (name : String) (slot : Slot) (j : PinId) :
    (nl.nameSlot name slot).pins[j]? =
      if slot.pin = j then
        (nl.pins[j]?).map fun p =>
          { p with name := some (p.name.getD (slot.outputName name p.mapping)) }
      else nl.pins[j]? := by
  simp only [nameSlot, Array.getElem?_modify]

theorem isNamed_foldl_nameSlot (nl : Netlist) (name : String) (slots : List Slot) (j : PinId) :
    (slots.foldl (nameSlot name) nl).isNamed j
      = (nl.isNamed j || slots.any fun slot => slot.pin = j) := by
  induction slots generalizing nl with
  | nil => simp
  | cons slot slots ih =>
    have hslot : (nl.nameSlot name slot).isNamed j = (nl.isNamed j || slot.pin = j) := by
      unfold isNamed
      rw [getElem?_pins_nameSlot]
      by_cases hj : slot.pin = j
      · cases nl.pins[j]? <;> simp [hj]
      · simp [hj]
    rw [List.foldl_cons, ih, hslot, List.any_cons, Bool.or_assoc]

theorem getElem?_nodes_instantiate :
    (nl.instantiate id mark).nodes[k]? =
      if id = k then (nl.nodes[k]?).map ({ · with mark := mark }) else nl.nodes[k]? := by
  unfold instantiate
  split
  · next hid =>
    split
    · next h => rw [← h, hid, Option.map_none]
    · rfl
  · simp only [setMark, nodes_foldl_nameSlot, Array.getElem?_modify]

/-- A pin is named afterwards that was named before or is an output of the node. -/
theorem isNamed_instantiate (j : PinId) :
    (nl.instantiate id mark).isNamed j
      = (nl.isNamed j || (nl.nodes[id]?).any fun n => n.outputSlots.any fun slot => slot.pin = j) := by
  unfold instantiate
  split
  · next hid => simp [hid]
  · next n hid =>
    rw [hid, Option.any_some, ← isNamed_foldl_nameSlot nl n.name]
    rfl

theorem nameSlot_of_isNamed (nl : Netlist) (name : String) {slot : Slot}
    (h : nl.isNamed slot.pin) : nl.nameSlot name slot = nl := by
  unfold nameSlot
  rw [modify_eq_self]
  intro p hp
  rw [isNamed, hp, Option.all_some] at h
  obtain ⟨given, hgiven⟩ := Option.isSome_iff_exists.mp h
  rw [hgiven, Option.getD_some, ← hgiven]

theorem foldl_nameSlot_of_isNamed (nl : Netlist) (name : String) (slots : List Slot)
    (h : ∀ slot ∈ slots, nl.isNamed slot.pin) : slots.foldl (nameSlot name) nl = nl := by
  induction slots with
  | nil => rfl
  | cons slot slots ih =>
    rw [List.foldl_cons, nameSlot_of_isNamed nl name (h slot List.mem_cons_self)]
    exact ih fun slot' hslot' => h slot' (List.mem_cons_of_mem _ hslot')

theorem setMark_of_mark (nl : Netlist) {n : Node} (hn : nl.nodes[id]? = some n) :
    nl.setMark id n.mark = nl := by
  unfold setMark
  rw [modify_eq_self]
  intro n' hn'
  cases hn.symm.trans hn'
  rfl

/-- Where all outputs are named and the mark is set, nothing is left to do. -/
theorem InstantiatedAt.instantiate_eq (h : nl.InstantiatedAt mark id) :
    nl.instantiate id mark = nl := by
  unfold Netlist.instantiate
  split
  · rfl
  · next n hn =>
    obtain ⟨rfl, hnamed⟩ := h n hn
    rw [foldl_nameSlot_of_isNamed nl n.name n.outputSlots hnamed, setMark_of_mark nl hn]

theorem instantiatedAt_instantiate : (nl.instantiate id mark).InstantiatedAt mark id := by
  intro n hn
  rw [getElem?_nodes_instantiate, if_pos rfl, Option.map_eq_some_iff] at hn
  obtain ⟨n, hn, rfl⟩ := hn
  refine ⟨rfl, ?_⟩
  intro slot hslot
  have hany : n.outputSlots.any (fun slot' => slot'.pin = slot.pin) = true :=
    List.any_eq_true.mpr ⟨slot, hslot, by simp⟩
  rw [isNamed_instantiate, hn, Option.any_some, hany, Bool.or_true]

/-- A node stays instantiated when another one, or the node itself, is instantiated. -/
theorem InstantiatedAt.instantiate (h : nl.InstantiatedAt mark k) :
    (nl.instantiate id mark).InstantiatedAt mark k := by
  by_cases hid : id = k
  · subst hid
    exact instantiatedAt_instantiate
  · intro n hn
    rw [getElem?_nodes_instantiate, if_neg hid] at hn
    obtain ⟨hmark, hnamed⟩ := h n hn
    refine ⟨hmark, ?_⟩
    intro slot hslot
    rw [isNamed_instantiate, hnamed slot hslot, Bool.true_or]

end Instantiating

/-! ### All primitives -/

def Instantiated (nl : Netlist) (mark : UInt16) : Prop :=
  ∀ id n, nl.nodes[id]? = some n → n.kind.isPrimitive → nl.InstantiatedAt mark id

section InstantiatingAll

variable {nl : Netlist}

theorem mem_primitiveIds {id : NodeId} :
    id ∈ nl.primitiveIds ↔ ∃ n, nl.nodes[id]? = some n ∧ n.kind.isPrimitive := by
  rw [primitiveIds, List.mem_filter, Option.any_eq_true]
  constructor
  · intro h
    rcases h with ⟨-, n, hn, hkind⟩
    exact ⟨n, hn, hkind⟩
  · intro h
    rcases h with ⟨n, hn, hkind⟩
    exact ⟨List.mem_range.mpr (Array.getElem?_eq_some_iff.mp hn).1, n, hn, hkind⟩

theorem instantiatedAt_foldl (nl : Netlist) (mark : UInt16) (ids : List NodeId) (k : NodeId)
    (h : k ∈ ids ∨ nl.InstantiatedAt mark k) :
    (ids.foldl (fun nl id => nl.instantiate id mark) nl).InstantiatedAt mark k := by
  induction ids generalizing nl with
  | nil => exact h.resolve_left List.not_mem_nil
  | cons id ids ih =>
    refine ih (nl.instantiate id mark) ?_
    rcases h with hmem | hat
    · rcases List.mem_cons.mp hmem with rfl | hrest
      · exact Or.inr instantiatedAt_instantiate
      · exact Or.inl hrest
    · exact Or.inr hat.instantiate

theorem instantiated_instantiateAll (nl : Netlist) (mark : UInt16) :
    (nl.instantiateAll mark).Instantiated mark := by
  intro k n hn hkind
  refine instantiatedAt_foldl nl mark nl.primitiveIds k (Or.inl ?_)
  have hkinds := map_nodes_of_graph (nl.graph_instantiateAll mark) (·.kind) (fun _ => rfl) k
  rw [hn, Option.map_some, eq_comm, Option.map_eq_some_iff] at hkinds
  obtain ⟨n', hn', hkind'⟩ := hkinds
  exact mem_primitiveIds.mpr ⟨n', hn', hkind' ▸ hkind⟩

/-- Where that has been done to all primitives, nothing is left to do. -/
theorem Instantiated.instantiateAll_eq {mark : UInt16} (h : nl.Instantiated mark) :
    nl.instantiateAll mark = nl := by
  have hids : ∀ id ∈ nl.primitiveIds, nl.InstantiatedAt mark id := by
    intro id hid
    obtain ⟨n, hn, hkind⟩ := mem_primitiveIds.mp hid
    exact h id n hn hkind
  unfold Netlist.instantiateAll
  generalize nl.primitiveIds = ids at hids
  induction ids with
  | nil => rfl
  | cons id ids ih =>
    rw [List.foldl_cons, (hids id List.mem_cons_self).instantiate_eq]
    exact ih fun id' hid' => hids id' (List.mem_cons_of_mem _ hid')

/-! ### Input pins -/

theorem getElem?_pins_foldl_nameSlot (nl : Netlist) (name : String) (slots : List Slot) (j : PinId)
    (h : ∀ slot ∈ slots, slot.pin ≠ j) :
    (slots.foldl (nameSlot name) nl).pins[j]? = nl.pins[j]? := by
  induction slots generalizing nl with
  | nil => rfl
  | cons slot slots ih =>
    rw [List.foldl_cons, ih _ fun slot' hslot' => h slot' (List.mem_cons_of_mem _ hslot'),
      getElem?_pins_nameSlot, if_neg (h slot List.mem_cons_self)]

variable {j : PinId} {p : Pin}

theorem CrossReferenced.pins_instantiate (hnl : nl.CrossReferenced) (hp : nl.pins[j]? = some p)
    (hinput : p.direction = .input) (id : NodeId) (mark : UInt16) :
    (nl.instantiate id mark).pins[j]? = some p := by
  unfold Netlist.instantiate
  split
  · exact hp
  · next n hn =>
    refine (getElem?_pins_foldl_nameSlot nl n.name n.outputSlots j ?_).trans hp
    intro slot hslot h
    subst h
    obtain ⟨q, hq, -, houtput⟩ := hnl.pin_of_mem .output hn (Node.pin_mem_outputs hslot)
    cases hp.symm.trans hq
    exact nomatch hinput.symm.trans houtput

/-- Input pins stay as they are. -/
theorem CrossReferenced.pins_instantiateAll (hnl : nl.CrossReferenced) (hp : nl.pins[j]? = some p)
    (hinput : p.direction = .input) (mark : UInt16) :
    (nl.instantiateAll mark).pins[j]? = some p := by
  unfold Netlist.instantiateAll
  generalize nl.primitiveIds = ids
  induction ids generalizing nl with
  | nil => exact hp
  | cons id ids ih =>
    exact ih (hnl.of_graph (nl.graph_instantiate id mark)) (hnl.pins_instantiate hp hinput id mark)

end InstantiatingAll

end Netlist

end CircuitLowering
