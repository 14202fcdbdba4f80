import CircuitLowering.Proofs.Circuit.Boundary

/-!
# The interface of a circuit

The inputs and outputs of a circuit are nodes like the others, and what tells them apart is their kind
and the two lists of the netlist.  In a circuit that was read from a description these lists name the
inputs and outputs in the order of the description (`CircuitDescription.names_of_build`), and no node
reads a net but primitives, nodes of the arithmetic path and the outputs, which have one input pin each
(`CircuitDescription.bordered_of_build`).  All of them are there
(`CircuitDescription.accessible_of_build`).
-/

namespace CircuitLowering

open Netlist

def Netlist.kind? (nl : Netlist) (k : NodeId) : Option NodeKind := (nl.nodes[k]?).map (·.kind)

/-- Whether all nodes that have input pins are primitives, nodes of the arithmetic path or outputs of
the circuit, these with one input pin. -/
def Netlist.Bordered (nl : Netlist) : Prop :=
  ∀ k kind, nl.kind? k = some kind → kind.isPrimitive ∨ kind.isArithmetic ∨
    nl.pinsOfNode k .input = [] ∨ (k ∈ nl.topOutputs ∧ ∃ pin, nl.pinsOfNode k .input = [pin])

/-- Whether the inputs and outputs of a netlist are nodes of it, the outputs with pins to be read. -/
structure Netlist.Accessible (nl : Netlist) : Prop where
  inputs : ∀ k ∈ nl.topInputs, k < nl.nodes.size
  outputs : ∀ k ∈ nl.topOutputs, nl.pinsOfNode k .input ≠ []

namespace Netlist

/-! ### Kinds of nodes -/

section Kinds

variable (nl : Netlist)

theorem kind?_addNode (name : String) (kind : NodeKind) (k : NodeId) :
    (nl.addNode name kind).2.kind? k = if k = nl.nodes.size then some kind else nl.kind? k := by
  simp only [kind?, addNode, Array.getElem?_push]
  split <;> rfl

theorem kind?_attachPort (node : NodeId) (mapping : String) (size : Nat) (d : Direction) :
    (nl.attachPort node mapping size d).2.kind? = nl.kind? := by
  funext k
  exact map_getElem?_modify (fun n => by cases d <;> rfl) nl.nodes node k

theorem kind?_setParam (node : NodeId) (name : String) (value : Param) :
    (nl.setParam node name value).kind? = nl.kind? := by
  funext k
  exact map_getElem?_modify (by intro n; rfl) nl.nodes node k

theorem kind?_of_nodes {nl nl' : Netlist} (h : nl'.nodes = nl.nodes) : nl'.kind? = nl.kind? := by
  funext k
  rw [kind?, h, kind?]

/-- A source is a node, a net and a port of one pin, which then gets its name and its net. -/
theorem addSource_eq (name : String) (kind : NodeKind) :
    (nl.addSource name kind).2.2 =
      ((((nl.addNode name kind).2.addNet (some name)).2.attachPort nl.nodes.size name 1
        .output).2.setPinName nl.pins.size (some name)).connect nl.nets.size nl.pins.size := rfl

theorem kind?_addSource (name : String) (kind : NodeKind) (k : NodeId) :
    (nl.addSource name kind).2.2.kind? k =
      if k = nl.nodes.size then some kind else nl.kind? k := by
  have hnodes (nl : Netlist) (pin : PinId) (net : NetId) :
      ((nl.setPinName pin (some name)).connect net pin).nodes = nl.nodes := nodes_connect _ net pin
  have haddNet (nl : Netlist) : (nl.addNet (some name)).2.nodes = nl.nodes := rfl
  rw [addSource_eq, kind?_of_nodes (hnodes _ _ _), kind?_attachPort, kind?_of_nodes (haddNet _),
    kind?_addNode]

theorem nodeName?_addSource (name : String) (kind : NodeKind) :
    (nl.addSource name kind).2.2.nodeName? nl.nodes.size = some name := by
  have hnamed (nl : Netlist) (pin : PinId) :
      (nl.setPinName pin (some name)).nodeName? = nl.nodeName? := rfl
  have haddNet (nl : Netlist) : (nl.addNet (some name)).2.nodeName? = nl.nodeName? := rfl
  rw [addSource_eq, nodeName?_connect, hnamed, nodeName?_attachPort, haddNet, nodeName?_addNode,
    if_pos rfl]

/-- A source reads no net. -/
theorem pinsOfNode_addSource (name : String) (kind : NodeKind) :
    (nl.addSource name kind).2.2.pinsOfNode nl.nodes.size .input = [] := by
  have hnamed (nl : Netlist) (pin : PinId) :
      (nl.setPinName pin (some name)).pinsOfNode = nl.pinsOfNode := rfl
  have hnode : nl.nodes.size < ((nl.addNode name kind).2.addNet (some name)).2.nodes.size :=
    Builder.size_nodes_lt_addNode nl name kind
  rw [addSource_eq, pinsOfNode_connect, hnamed, pinsOfNode_attachPort _ _ _ _ _ hnode]
  exact (if_neg (by simp)).trans (Builder.pinsOfNode_newNode nl name kind .input)

end Kinds

/-- One node more, which is no exception, makes none. -/
theorem Bordered.grow {nl nl' : Netlist} (hnl : nl.Bordered) {kind : NodeKind}
    (hkinds : ∀ k, nl'.kind? k = if k = nl.nodes.size then some kind else nl.kind? k)
    (hpins : ∀ k, k < nl.nodes.size → nl'.pinsOfNode k .input = nl.pinsOfNode k .input)
    (htop : nl.topOutputs ⊆ nl'.topOutputs)
    (hnew : kind.isPrimitive ∨ kind.isArithmetic ∨ nl'.pinsOfNode nl.nodes.size .input = [] ∨
      (nl.nodes.size ∈ nl'.topOutputs ∧ ∃ pin, nl'.pinsOfNode nl.nodes.size .input = [pin])) :
    nl'.Bordered := by
  intro k kind' hk
  rw [hkinds] at hk
  split at hk
  · next hsize =>
    cases hk
    rw [hsize]
    exact hnew
  · obtain ⟨n, hn, -⟩ := Option.map_eq_some_iff.mp hk
    rw [hpins k (Array.getElem?_eq_some_iff.mp hn).1]
    rcases hnl k kind' hk with hprimitive | harithmetic | hnone | ⟨hmem, hone⟩
    · exact .inl hprimitive
    · exact .inr (.inl harithmetic)
    · exact .inr (.inr (.inl hnone))
    · exact .inr (.inr (.inr ⟨htop hmem, hone⟩))

end Netlist

/-- A declared node is a primitive or is left to the arithmetic path. -/
theorem KindDeclaration.isPrimitive_or_isArithmetic {decl : KindDeclaration} {kind : NodeKind}
    (h : decl.toKind = .ok kind) : kind.isPrimitive ∨ kind.isArithmetic := by
  have hinner : kind.isConstant = false ∧ kind.isBoundary = false := by
    cases decl with
    | lut width mask =>
      change (readBits mask).map _ = _ at h
      generalize readBits mask = bits at h
      cases bits <;> cases h
      exact ⟨rfl, rfl⟩
    | sop width depth table =>
      change (readBits table).map _ = _ at h
      generalize readBits table = bits at h
      cases bits <;> cases h
      exact ⟨rfl, rfl⟩
    | _ =>
      cases h
      exact ⟨rfl, rfl⟩
  unfold NodeKind.isPrimitive
  rw [hinner.1, hinner.2]
  cases kind.isArithmetic <;> simp

namespace Builder

/-! ### Nodes with input pins -/

section Nodes

variable {b b' : Builder}

/-- The pins of a port do not touch the nodes. -/
theorem kind?_bindInputs (pins : List (PinId × Option String)) :
    (pins.foldl (fun b (pin, net) => b.bindInput pin net) b).netlist.kind? = b.netlist.kind? := by
  induction pins generalizing b with
  | nil => rfl
  | cons q pins ih => exact ih.trans (kind?_of_nodes (nodes_bindInput q.1 q.2))

theorem kind?_addInputPort {node : String} {id : NodeId} {port : PortBinding}
    (h : addInputPort node id b port = .ok b') : b'.netlist.kind? = b.netlist.kind? := by
  obtain ⟨_, -, h⟩ := bind_eq_ok_iff.mp h
  cases h
  exact (kind?_bindInputs _).trans (kind?_attachPort b.netlist id port.mapping _ .input)

theorem kind?_addOutputPort {node : String} {id : NodeId} {port : PortBinding}
    (h : addOutputPort node id b port = .ok b') : b'.netlist.kind? = b.netlist.kind? := by
  obtain ⟨_, -, h⟩ := bind_eq_ok_iff.mp h
  refine foldlM_invariant (fun b' : Builder => b'.netlist.kind? = b.netlist.kind?) ?_ ?_ h
  · intro b₁ q b₂ _ hstep hb₁
    exact (kind?_of_nodes (nodes_bindOutput hstep)).trans hb₁
  · exact kind?_attachPort b.netlist id port.mapping _ .output

theorem kind?_addParam {id : NodeId} {param : String × ParamDeclaration}
    (h : addParam id b param = .ok b') : b'.netlist.kind? = b.netlist.kind? := by
  obtain ⟨value, -, h⟩ := bind_eq_ok_iff.mp h
  cases h
  exact kind?_setParam b.netlist id param.1 value

/-- A node that is added has the declared kind, and no other node changes its own. -/
theorem kind?_addNode_eq_ok {decl : NodeDeclaration} (h : b.addNode decl = .ok b') :
    ∃ kind, decl.kind.toKind = .ok kind ∧
      ∀ k, b'.netlist.kind? k = if k = b.netlist.nodes.size then some kind else b.netlist.kind? k := by
  obtain ⟨kind, b₁, b₂, -, hkind, hinputs, houtputs, hparams⟩ := addNode_eq_ok h
  refine ⟨kind, hkind, fun k => ?_⟩
  let same (b' : Builder) : Prop :=
    b'.netlist.kind? = (b.withNode decl.name kind).netlist.kind?
  have hinputs : same b₁ :=
    foldlM_invariant same (fun _ _ _ _ hport hb => (kind?_addInputPort hport).trans hb) rfl hinputs
  have houtputs : same b₂ :=
    foldlM_invariant same (fun _ _ _ _ hport hb => (kind?_addOutputPort hport).trans hb) hinputs
      houtputs
  have hparams : same b' :=
    foldlM_invariant same (fun _ _ _ _ hparam hb => (kind?_addParam hparam).trans hb) houtputs
      hparams
  exact (congrFun hparams k).trans (kind?_addNode b.netlist decl.name kind k)

/-- An output of the circuit is a new node of its name. -/
theorem kind?_addOutput (b : Builder) (name : String) (k : NodeId) :
    (b.addOutput name).netlist.kind? k =
      if k = b.netlist.nodes.size then some .output else b.netlist.kind? k := by
  have hnodes := nodes_netOf (b := b) name
  have hconnect (b : Builder) (net : NetId) (pin : PinId) (ids : List NodeId) :
      ((b.connect net pin).withOutputs ids).netlist.nodes = b.netlist.nodes := nodes_connect _ net pin
  rw [addOutput_eq, kind?_of_nodes (hconnect _ _ _ _), kind?_attachPort, kind?_addNode,
    kind?_of_nodes hnodes, hnodes]

theorem nodeName?_addOutput (b : Builder) (name : String) :
    (b.addOutput name).netlist.nodeName? b.netlist.nodes.size = some name := by
  have hnodes := nodes_netOf (b := b) name
  have hconnect (b : Builder) (net : NetId) (pin : PinId) (ids : List NodeId) :
      ((b.connect net pin).withOutputs ids).netlist.nodeName? = b.netlist.nodeName? :=
    funext fun k => nodeName?_connect b.netlist net pin k
  rw [addOutput_eq, hconnect, nodeName?_attachPort, nodeName?_addNode, hnodes, if_pos rfl]

theorem Labelled.bordered_addNode (hb : b.Labelled) (hnl : b.netlist.Bordered)
    {decl : NodeDeclaration} (h : b.addNode decl = .ok b') : b'.netlist.Bordered := by
  obtain ⟨hgrown, -, -⟩ := hb.addNode h
  obtain ⟨kind, hkind, hkinds⟩ := kind?_addNode_eq_ok h
  refine hnl.grow hkinds (fun k hk => congrFun (hgrown.pins k hk) _) ?_ ?_
  · rw [hgrown.topOutputs]
    exact List.Subset.refl _
  · rcases KindDeclaration.isPrimitive_or_isArithmetic hkind with hprimitive | harithmetic
    · exact .inl hprimitive
    · exact .inr (.inl harithmetic)

/-- An input of the circuit drives a net and reads none. -/
theorem Labelled.bordered_addInput (hb : b.Labelled) (hnl : b.netlist.Bordered) (name : String) :
    (b.addInput name).netlist.Bordered := by
  obtain ⟨hgrown, -⟩ := hb.addSource name
  have hkinds := b.netlist.kind?_addSource name .input
  have hnone := b.netlist.pinsOfNode_addSource name .input
  rw [addInput_eq]
  generalize (b.netlist.addSource name .input).2.2 = nl at hgrown hkinds hnone
  have htop : nl.topOutputs = b.netlist.topOutputs := hgrown.topOutputs
  refine hnl.grow hkinds (fun k hk => congrFun (hgrown.pins k hk) _) ?_ (.inr (.inr (.inl hnone)))
  change _ ⊆ nl.topOutputs
  rw [htop]
  exact List.Subset.refl _

theorem Labelled.bordered_addOutput (hb : b.Labelled) (hnl : b.netlist.Bordered) (name : String) :
    (b.addOutput name).netlist.Bordered := by
  have hfinishes := hb.addOutput name
  obtain ⟨pin, hpins, -⟩ := hfinishes.outputs 0 name rfl
  have hkinds := b.kind?_addOutput name
  generalize b.addOutput name = b' at hfinishes hpins hkinds
  refine hnl.grow hkinds (fun k hk => congrFun (hfinishes.grown.pins k hk) _) ?_ ?_
  · rw [hfinishes.topOutputs]
    exact List.subset_append_left _ _
  · refine .inr (.inr (.inr ⟨?_, pin, hpins⟩))
    rw [hfinishes.topOutputs]
    simp

theorem bordered_initial : initial.Bordered := by
  have hall : ∀ k < 3, initial.pinsOfNode k .input = [] := by decide +kernel
  have hsize : initial.nodes.size = 3 := by decide +kernel
  intro k kind hk
  obtain ⟨n, hn, -⟩ := Option.map_eq_some_iff.mp hk
  exact .inr (.inr (.inl (hall k (hsize ▸ (Array.getElem?_eq_some_iff.mp hn).1))))

end Nodes

/-! ### Names of the boundary -/

section Names

variable {b b' : Builder}

/-- Nodes keep their names while a builder grows. -/
theorem Extends.map_nodeName? {old : NodeId → Prop} {n : Nat} (h : Extends old n b b')
    {ids : List NodeId} {names : List String} (hids : ids.map b.netlist.nodeName? = names.map some) :
    ids.map b'.netlist.nodeName? = names.map some := by
  rw [← hids]
  refine List.map_congr_left fun k hk => ?_
  have hname : b.netlist.nodeName? k ∈ names.map some := hids ▸ List.mem_map_of_mem hk
  obtain ⟨name, -, hname⟩ := List.mem_map.mp hname
  rw [← hname]
  exact h.nodeName k name hname.symm

/-- The inputs of a circuit are called as in the description. -/
theorem Started.map_nodeName?_addInputs {done : List String} (hb : Started done b)
    (hdone : b.netlist.topInputs.map b.netlist.nodeName? = done.map some) (names : List String) :
    let b' := names.foldl Builder.addInput b
    b'.netlist.topInputs.map b'.netlist.nodeName? = (done ++ names).map some := by
  induction names generalizing done b with
  | nil => simpa using hdone
  | cons name names ih =>
    rw [List.append_cons, List.foldl_cons]
    refine ih (hb.addInput name) ?_
    obtain ⟨hgrown, -⟩ := hb.labelled.addSource name
    have hnew := b.netlist.nodeName?_addSource name .input
    rw [addInput_eq]
    generalize (b.netlist.addSource name .input).2.2 = nl at hgrown hnew
    have htop : nl.topInputs = b.netlist.topInputs := hgrown.topInputs
    have hold : b.netlist.topInputs.map nl.nodeName? = done.map some := hgrown.map_nodeName? hdone
    change (nl.topInputs ++ [b.netlist.nodes.size]).map nl.nodeName? = _
    rw [htop, List.map_append, hold, List.map_singleton, hnew, List.map_append, List.map_singleton]

theorem Labelled.map_nodeName?_addOutputs (hb : b.Labelled) {done : List String}
    (hdone : b.netlist.topOutputs.map b.netlist.nodeName? = done.map some) (names : List String) :
    let b' := names.foldl Builder.addOutput b
    b'.netlist.topOutputs.map b'.netlist.nodeName? = (done ++ names).map some := by
  induction names generalizing done b with
  | nil => simpa using hdone
  | cons name names ih =>
    have hfinishes := hb.addOutput name
    have hnew := b.nodeName?_addOutput name
    rw [List.append_cons, List.foldl_cons]
    refine ih hfinishes.labelled ?_
    generalize b.addOutput name = b' at hfinishes hnew
    have hold : b.netlist.topOutputs.map b'.netlist.nodeName? = done.map some :=
      hfinishes.grown.map_nodeName? hdone
    rw [hfinishes.topOutputs, List.length_singleton, List.range'_one, List.map_append, hold,
      List.map_singleton, hnew, List.map_append, List.map_singleton]

end Names

end Builder

namespace CircuitDescription

variable {d : CircuitDescription} {circuit : Circuit}

/-- The inputs and outputs of a circuit are listed under the names, and in the order, of its
description. -/
theorem names_of_build (h : d.build = .ok circuit) :
    circuit.netlist.topInputs.map circuit.netlist.nodeName? = d.inputs.map some ∧
      circuit.netlist.topOutputs.map circuit.netlist.nodeName? = d.outputs.map some := by
  obtain ⟨b, hnodes, h⟩ := bind_eq_ok_iff.mp h
  cases h
  have hstart := Builder.started_start d
  obtain ⟨hgrown, hlabelled, -⟩ := hstart.labelled.addNodes hnodes
  have hfinishes := hlabelled.addOutputs d.outputs
  constructor
  · have hinputs : (Builder.start d).netlist.topInputs.map (Builder.start d).netlist.nodeName? =
        d.inputs.map some := by
      unfold Builder.start
      generalize d.models.foldl Builder.declareModel {} = catalog
      have hnetlist : (Builder.mk catalog initial Builder.constantNets []).netlist = initial := by
        dsimp only
      have hfirst := Builder.started_first hnetlist rfl
      refine hfirst.map_nodeName?_addInputs ?_ d.inputs
      rw [hfirst.topInputs]
      rfl
    have hinputs := hgrown.map_nodeName? hinputs
    rw [← hgrown.topInputs] at hinputs
    have htop := hfinishes.grown.topInputs
    exact htop ▸ hfinishes.grown.map_nodeName? hinputs
  · have hnone : b.netlist.topOutputs = [] := hgrown.topOutputs.trans hstart.topOutputs
    have hdone : b.netlist.topOutputs.map b.netlist.nodeName? = ([] : List String).map some := by
      rw [hnone]
      rfl
    exact hlabelled.map_nodeName?_addOutputs hdone d.outputs

/-- Only primitives, nodes of the arithmetic path and the outputs of the circuit read nets. -/
theorem bordered_of_build (h : d.build = .ok circuit) : circuit.netlist.Bordered := by
  have hstart : (Builder.start d).netlist.Bordered := by
    refine Builder.start_keeps (P := fun b => b.netlist.Bordered) d ?_ ?_
    · intro b hnetlist _
      rw [hnetlist]
      exact Builder.bordered_initial
    · exact fun b name hb _ hnl => hb.bordered_addInput hnl name
  obtain ⟨b, -, hb, hnetlist⟩ := Builder.build_keeps (P := fun b => b.netlist.Bordered) h hstart
    (fun b decl b' hb hnl hadd => hb.bordered_addNode hnl hadd)
    fun b name hb hnl => hb.bordered_addOutput hnl name
  exact hnetlist ▸ hb

theorem accessible_of_build (h : d.build = .ok circuit) : circuit.netlist.Accessible := by
  constructor
  · intro k hk
    have hname : circuit.netlist.nodeName? k ∈ d.inputs.map some := by
      rw [← (names_of_build h).1]
      exact List.mem_map_of_mem hk
    obtain ⟨name, -, hname⟩ := List.mem_map.mp hname
    obtain ⟨n, hn, -⟩ := Option.map_eq_some_iff.mp hname.symm
    exact (Array.getElem?_eq_some_iff.mp hn).1
  · obtain ⟨b, hnodes, h⟩ := bind_eq_ok_iff.mp h
    cases h
    have hstart := Builder.started_start d
    obtain ⟨hgrown, hlabelled, -⟩ := hstart.labelled.addNodes hnodes
    have hfinishes := hlabelled.addOutputs d.outputs
    have hnone : b.netlist.topOutputs = [] := hgrown.topOutputs.trans hstart.topOutputs
    intro k hk
    have hrange : k ∈ List.range' b.netlist.nodes.size d.outputs.length := by
      have htop := hfinishes.topOutputs
      rw [hnone, List.nil_append] at htop
      exact htop ▸ hk
    obtain ⟨i, hi, rfl⟩ := List.mem_range'.mp hrange
    obtain ⟨pin, hpin, -⟩ := hfinishes.outputs i _ (List.getElem?_eq_getElem hi)
    rw [Nat.one_mul]
    exact fun hnil => List.cons_ne_nil _ _ (hpin.symm.trans hnil)

end CircuitDescription

end CircuitLowering
