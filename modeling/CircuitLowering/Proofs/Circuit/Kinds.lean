import CircuitLowering.Proofs.Circuit.Connections
import CircuitLowering.Proofs.Circuit.Interface
import CircuitLowering.Proofs.Emission.Reports

/-!
# The kinds of a circuit

Nodes are only ever added, so the kinds of a circuit stand in the order of its description: the three
constants, the inputs, the declared nodes and the outputs (`CircuitDescription.kinds_of_build`).  A
declared node is found under its number with the kind that its declaration stands for.
-/

namespace CircuitLowering

open Netlist

namespace Netlist

variable {nl nl' : Netlist} {kind : NodeKind}

theorem getElem?_kinds (nl : Netlist) (k : NodeId) : nl.kinds[k]? = nl.kind? k := by
  rw [kinds, List.getElem?_map, Array.getElem?_toList, kind?]

theorem length_kinds (nl : Netlist) : nl.kinds.length = nl.nodes.size := by
  rw [kinds, List.length_map, Array.length_toList]

/-- A node that is added comes last. -/
theorem kinds_of_grown
    (h : ∀ k, nl'.kind? k = if k = nl.nodes.size then some kind else nl.kind? k) :
    nl'.kinds = nl.kinds ++ [kind] := by
  apply List.ext_getElem?
  intro k
  rw [getElem?_kinds, h, List.getElem?_append, length_kinds, getElem?_kinds]
  rcases Nat.lt_trichotomy k nl.nodes.size with hlt | rfl | hgt
  · rw [if_neg (Nat.ne_of_lt hlt), if_pos hlt]
  · rw [if_pos rfl, if_neg (Nat.lt_irrefl _), Nat.sub_self]
    rfl
  · rw [if_neg (Nat.ne_of_gt hgt), if_neg (Nat.lt_asymm hgt), kind?,
      Array.getElem?_eq_none (Nat.le_of_lt hgt), List.getElem?_eq_none]
    · rfl
    · rw [List.length_singleton]
      exact Nat.sub_pos_of_lt hgt

end Netlist

namespace Builder

variable {b b' : Builder}

theorem kinds_addInputs (b : Builder) (names : List String) :
    (names.foldl addInput b).netlist.kinds = b.netlist.kinds ++ names.map fun _ => .input := by
  induction names generalizing b with
  | nil => exact (List.append_nil _).symm
  | cons name names ih =>
    have hfirst : (b.addInput name).netlist.kinds = b.netlist.kinds ++ [.input] := by
      have hkinds := kinds_of_grown (b.netlist.kind?_addSource name .input)
      rw [addInput_eq]
      generalize (b.netlist.addSource name .input).2.2 = nl at hkinds
      exact hkinds
    rw [List.foldl_cons, ih, hfirst, List.append_assoc]
    rfl

theorem kinds_addOutputs (b : Builder) (names : List String) :
    (names.foldl addOutput b).netlist.kinds = b.netlist.kinds ++ names.map fun _ => .output := by
  induction names generalizing b with
  | nil => exact (List.append_nil _).symm
  | cons name names ih =>
    have hfirst : (b.addOutput name).netlist.kinds = b.netlist.kinds ++ [.output] :=
      kinds_of_grown (b.kind?_addOutput name)
    rw [List.foldl_cons, ih, hfirst, List.append_assoc]
    rfl

theorem kinds_addNodes {decls : List NodeDeclaration} (h : decls.foldlM addNode b = .ok b') :
    ∃ kinds, List.Forall₂ (fun decl kind => decl.kind.toKind = .ok kind) decls kinds ∧
      b'.netlist.kinds = b.netlist.kinds ++ kinds := by
  induction decls generalizing b with
  | nil =>
    cases h
    exact ⟨[], .nil, (List.append_nil _).symm⟩
  | cons decl decls ih =>
    rw [List.foldlM_cons] at h
    obtain ⟨b₁, hfirst, hrest⟩ := bind_eq_ok_iff.mp h
    obtain ⟨kind, hkind, hgrown⟩ := kind?_addNode_eq_ok hfirst
    obtain ⟨kinds, hkinds, hall⟩ := ih hrest
    refine ⟨kind :: kinds, .cons hkind hkinds, ?_⟩
    rw [hall, kinds_of_grown hgrown, List.append_assoc]
    rfl

end Builder

theorem KindDeclaration.eq_hardBlock_iff {decl : KindDeclaration} {kind : NodeKind} {model : String}
    (h : decl.toKind = .ok kind) : kind = .hardBlock model ↔ decl = .hardBlock model := by
  cases decl with
  | lut width mask =>
    change (readBits mask).map _ = _ at h
    cases hbits : readBits mask <;> rw [hbits] at h <;> cases h
    simp
  | sop width depth table =>
    change (readBits table).map _ = _ at h
    cases hbits : readBits table <;> rw [hbits] at h <;> cases h
    simp
  | _ =>
    cases h
    simp

namespace CircuitDescription

variable {d : CircuitDescription} {circuit : Circuit}

/-- The kinds of the nodes of a circuit, in their order. -/
theorem kinds_of_build (h : d.build = .ok circuit) :
    ∃ kinds, List.Forall₂ (fun decl kind => decl.kind.toKind = .ok kind) d.nodes kinds ∧
      circuit.netlist.kinds = [.ground, .power, .pad] ++ (d.inputs.map fun _ => .input) ++ kinds ++
        d.outputs.map fun _ => .output := by
  obtain ⟨b, hnodes, h⟩ := bind_eq_ok_iff.mp h
  cases h
  obtain ⟨kinds, hkinds, hall⟩ := Builder.kinds_addNodes hnodes
  refine ⟨kinds, hkinds, ?_⟩
  have hstart : (Builder.start d).netlist.kinds =
      [.ground, .power, .pad] ++ d.inputs.map fun _ => .input := by
    unfold Builder.start
    generalize d.models.foldl Builder.declareModel {} = catalog
    have hnetlist : (Builder.mk catalog initial Builder.constantNets []).netlist = initial := by
      dsimp only
    have hinitial : initial.kinds = [.ground, .power, .pad] := by decide +kernel
    have hinputs := Builder.kinds_addInputs (Builder.mk catalog initial Builder.constantNets []) d.inputs
    rw [hnetlist, hinitial] at hinputs
    exact hinputs
  have houtputs := Builder.kinds_addOutputs b d.outputs
  rw [hall, hstart] at houtputs
  exact houtputs

/-- A declared node has the kind that its declaration stands for. -/
theorem kind?_nodeId (h : d.build = .ok circuit) {k : Nat} {decl : NodeDeclaration}
    (hk : d.nodes[k]? = some decl) :
    ∃ kind, decl.kind.toKind = .ok kind ∧ circuit.netlist.kind? (d.nodeId k) = some kind := by
  obtain ⟨kinds, hkinds, hall⟩ := kinds_of_build h
  obtain ⟨kind, hi, hkind⟩ := exists_of_forall₂ (List.Forall₂.flip hkinds) hk
  refine ⟨kind, hkind, ?_⟩
  have hlt : k < kinds.length := (List.getElem?_eq_some_iff.mp hi).1
  have hbefore : ([NodeKind.ground, .power, .pad] ++ d.inputs.map fun _ => NodeKind.input).length =
      3 + d.inputs.length := by
    rw [List.length_append, List.length_map]
    rfl
  have hplace : d.nodeId k = 3 + d.inputs.length + k := rfl
  rw [← getElem?_kinds, hall, hplace, List.getElem?_append_left, ← hbefore,
    List.getElem?_append_right (Nat.le_add_right _ _), Nat.add_sub_cancel_left]
  · exact hi
  · rw [List.length_append, hbefore]
    exact Nat.add_lt_add_left hlt _

/-- The declared nodes are all that can be hard blocks. -/
theorem hardBlock_mem_kinds_iff (h : d.build = .ok circuit) {model : String} :
    .hardBlock model ∈ circuit.netlist.kinds ↔ ∃ decl ∈ d.nodes, decl.kind = .hardBlock model := by
  obtain ⟨kinds, hkinds, hall⟩ := kinds_of_build h
  have hblock {decl : NodeDeclaration} {kind : NodeKind} (hkind : decl.kind.toKind = .ok kind) :
      kind = .hardBlock model ↔ decl.kind = .hardBlock model :=
    KindDeclaration.eq_hardBlock_iff hkind
  rw [hall]
  constructor
  · intro hmem
    have hdeclared : .hardBlock model ∈ kinds := by simpa using hmem
    obtain ⟨k, hk⟩ := List.mem_iff_getElem?.mp hdeclared
    obtain ⟨decl, hdecl, hkind⟩ := exists_of_forall₂ hkinds hk
    exact ⟨decl, List.mem_of_getElem? hdecl, (hblock hkind).mp rfl⟩
  · rintro ⟨decl, hdecl, hkind⟩
    obtain ⟨k, hk⟩ := List.mem_iff_getElem?.mp hdecl
    obtain ⟨kind, hi, htoKind⟩ := exists_of_forall₂ (List.Forall₂.flip hkinds) hk
    have hdeclared : .hardBlock model ∈ kinds :=
      (hblock htoKind).mpr hkind ▸ List.mem_of_getElem? hi
    simpa using hdeclared

end CircuitDescription

end CircuitLowering
