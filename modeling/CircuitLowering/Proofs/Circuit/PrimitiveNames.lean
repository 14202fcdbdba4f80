import CircuitLowering.Proofs.Circuit.Interface
import CircuitLowering.Proofs.Circuit.Violations

/-!
# Names of primitives

A description is refused where two of its nodes have one name.  The nodes for constants and for the
inputs and outputs of the circuit are called as they like, but none of them is a primitive.  So of a
circuit that was read from a description no two primitives have one name
(`CircuitDescription.nodup_primitiveNames_of_build`).
-/

namespace CircuitLowering

open Netlist

def Node.primitiveNames (ns : List Node) : List String :=
  (ns.filter (·.kind.isPrimitive)).map (·.name)

theorem Node.primitiveNames_cons (n : Node) (ns : List Node) :
    primitiveNames (n :: ns) = (if n.kind.isPrimitive then [n.name] else []) ++ primitiveNames ns := by
  unfold primitiveNames
  rw [List.filter_cons]
  split <;> rfl

namespace Netlist

def primitiveName? (nl : Netlist) (k : NodeId) : Option String :=
  (nl.nodes[k]?).bind fun n => if n.kind.isPrimitive then some n.name else none

variable {nl nl' : Netlist}

theorem primitiveName?_eq (nl : Netlist) (k : NodeId) :
    nl.primitiveName? k =
      (nl.kind? k).bind fun kind => if kind.isPrimitive then nl.nodeName? k else none := by
  unfold primitiveName? kind? nodeName?
  cases nl.nodes[k]? <;> rfl

/-- One node more, and all others as they were. -/
theorem primitiveName?_grow {kind : NodeKind} {name : String}
    (hkinds : ∀ k, nl'.kind? k = if k = nl.nodes.size then some kind else nl.kind? k)
    (hnames : ∀ k name, nl.nodeName? k = some name → nl'.nodeName? k = some name)
    (hnew : nl'.nodeName? nl.nodes.size = some name) (k : NodeId) :
    nl'.primitiveName? k =
      if k = nl.nodes.size then if kind.isPrimitive then some name else none
      else nl.primitiveName? k := by
  rw [primitiveName?_eq, primitiveName?_eq, hkinds]
  by_cases hk : k = nl.nodes.size
  · rw [if_pos hk, if_pos hk, hk, hnew]
    rfl
  · rw [if_neg hk, if_neg hk]
    cases hn : nl.nodes[k]? with
    | none => simp [kind?, hn]
    | some n =>
      have hname : nl.nodeName? k = some n.name := by rw [nodeName?, hn, Option.map_some]
      rw [hname, hnames k n.name hname]

theorem nodup_primitiveNames
    (h : ∀ k k' name, nl.primitiveName? k = some name → nl.primitiveName? k' = some name → k = k') :
    (Node.primitiveNames nl.nodes.toList).Nodup := by
  have hname (k : Nat) (hk : k < nl.nodes.toList.length)
      (hkind : (nl.nodes.toList[k]).kind.isPrimitive) :
      nl.primitiveName? k = some (nl.nodes.toList[k]).name := by
    rw [Array.getElem_toList] at hkind ⊢
    rw [primitiveName?, Array.getElem?_eq_getElem hk, Option.bind_some, if_pos hkind]
  rw [Node.primitiveNames, List.Nodup, List.pairwise_map, List.pairwise_filter, List.pairwise_iff_getElem]
  intro i j hi hj hij hfirst hsecond hsame
  have hone := hname i hi hfirst
  rw [hsame] at hone
  exact absurd (h i j _ hone (hname j hj hsecond)) (Nat.ne_of_lt hij)

theorem primitiveNames_of_graph (h : nl'.graph = nl.graph) :
    Node.primitiveNames nl'.nodes.toList = Node.primitiveNames nl.nodes.toList := by
  have hgraph (nl : Netlist) :
      Node.primitiveNames nl.graph.nodes.toList = Node.primitiveNames nl.nodes.toList := by
    simp [Node.primitiveNames, graph, List.filter_map, Function.comp_def]
  rw [← hgraph, h, hgraph]

end Netlist

namespace Builder

structure Distinguishes (b : Builder) : Prop where
  known : ∀ k name, b.netlist.primitiveName? k = some name → name ∈ b.nodeNames
  distinct : ∀ k k' name, b.netlist.primitiveName? k = some name →
    b.netlist.primitiveName? k' = some name → k = k'

variable {b b' : Builder}

theorem Distinguishes.of_eq (hb : b.Distinguishes) (hnames : b'.nodeNames = b.nodeNames)
    (hsame : ∀ k, b'.netlist.primitiveName? k = b.netlist.primitiveName? k) : b'.Distinguishes := by
  constructor
  · intro k name hk
    rw [hsame] at hk
    exact hnames ▸ hb.known k name hk
  · intro k k' name hk hk'
    rw [hsame] at hk hk'
    exact hb.distinct k k' name hk hk'

/-- A node that is no primitive makes no difference. -/
theorem Distinguishes.grow (hb : b.Distinguishes) (hnames : b'.nodeNames = b.nodeNames)
    {kind : NodeKind} {name : String} (hkind : kind.isPrimitive = false)
    (hnew : ∀ k, b'.netlist.primitiveName? k =
      if k = b.netlist.nodes.size then if kind.isPrimitive then some name else none
      else b.netlist.primitiveName? k) : b'.Distinguishes := by
  refine hb.of_eq hnames fun k => ?_
  rw [hnew, hkind]
  split
  · next hk =>
    rw [hk, primitiveName?, Array.getElem?_eq_none (Nat.le_refl _)]
    rfl
  · rfl

/-- A node is refused if its name is known, so it adds a name that no primitive has. -/
theorem Labelled.distinguishes_addNode (hb : b.Labelled) (hdistinct : b.Distinguishes)
    {decl : NodeDeclaration} (h : b.addNode decl = .ok b') : b'.Distinguishes := by
  obtain ⟨hgrown, -, hnode⟩ := hb.addNode h
  obtain ⟨kind, -, hkinds⟩ := kind?_addNode_eq_ok h
  obtain ⟨-, -, -, hfresh, -⟩ := addNode_eq_ok h
  have hnames := nodeNames_addNode h
  have hname := primitiveName?_grow hkinds hgrown.nodeName hnode.name
  constructor
  · intro k name hk
    rw [hnames]
    rw [hname] at hk
    split at hk
    · split at hk <;> cases hk
      exact List.mem_cons_self
    · exact List.mem_cons_of_mem _ (hdistinct.known k name hk)
  · -- a name at the new place and at an old one would have been known before
    intro k k' name hk hk'
    rw [hname] at hk hk'
    split at hk <;> split at hk'
    · next hsize hsize' => rw [hsize, hsize']
    · split at hk <;> cases hk
      exact absurd (hdistinct.known k' _ hk') hfresh
    · split at hk' <;> cases hk'
      exact absurd (hdistinct.known k _ hk) hfresh
    · exact hdistinct.distinct k k' name hk hk'

theorem Labelled.distinguishes_addInput (hb : b.Labelled) (hdistinct : b.Distinguishes)
    (name : String) : (b.addInput name).Distinguishes := by
  obtain ⟨hgrown, -⟩ := hb.addSource name
  have hname := primitiveName?_grow (b.netlist.kind?_addSource name .input) hgrown.nodeName
    (b.netlist.nodeName?_addSource name .input)
  rw [addInput_eq]
  generalize (b.netlist.addSource name .input).2.2 = nl at hname
  exact hdistinct.grow rfl rfl hname

theorem Labelled.distinguishes_addOutput (hb : b.Labelled) (hdistinct : b.Distinguishes)
    (name : String) : (b.addOutput name).Distinguishes := by
  have hname := primitiveName?_grow (b.kind?_addOutput name) (hb.addOutput name).grown.nodeName
    (b.nodeName?_addOutput name)
  exact hdistinct.grow (sameRecords_netOf b name).nodeNames rfl hname

theorem distinguishes_first (h : b.netlist = initial) : b.Distinguishes := by
  have hall : ∀ k < 3, initial.primitiveName? k = none := by decide +kernel
  have hsize : initial.nodes.size = 3 := by decide +kernel
  have hnone (k : NodeId) : b.netlist.primitiveName? k = none := by
    rw [h]
    by_cases hk : k < 3
    · exact hall k hk
    · rw [primitiveName?, Array.getElem?_eq_none (hsize ▸ Nat.not_lt.mp hk)]
      rfl
  constructor
  · intro k name hk
    rw [hnone] at hk
    cases hk
  · intro k k' name hk
    rw [hnone] at hk
    cases hk

end Builder

/-- No two primitives of a circuit that was read from a description have one name. -/
theorem CircuitDescription.nodup_primitiveNames_of_build {d : CircuitDescription} {circuit : Circuit}
    (h : d.build = .ok circuit) : (Node.primitiveNames circuit.netlist.nodes.toList).Nodup := by
  have hstart : (Builder.start d).Distinguishes :=
    Builder.start_keeps (P := Builder.Distinguishes) d
      (fun b hnetlist _ => Builder.distinguishes_first hnetlist)
      fun b name hb _ hdistinct => hb.distinguishes_addInput hdistinct name
  obtain ⟨b, -, hb, hnetlist⟩ := Builder.build_keeps (P := Builder.Distinguishes) h hstart
    (fun b decl b' hb hdistinct hadd => hb.distinguishes_addNode hdistinct hadd)
    fun b name hb hdistinct => hb.distinguishes_addOutput hdistinct name
  rw [← hnetlist]
  exact nodup_primitiveNames hb.distinct

end CircuitLowering
