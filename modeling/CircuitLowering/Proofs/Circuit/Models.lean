import CircuitLowering.Proofs.Catalog.Names
import CircuitLowering.Proofs.Circuit.Kinds
import CircuitLowering.Proofs.Circuit.Violations

/-!
# The models of a circuit

The models of a circuit are said by its description alone.  They stand in the order in which their names
are first declared; a model has the ports of its last declaration, and it is used if any of its
declarations says so or a hard block is an instance of it (`CircuitDescription.models_of_build`).
-/

namespace CircuitLowering

def PortDeclaration.modelPort (side : Direction) (p : PortDeclaration) : ModelPort where
  name := p.name
  size := p.size.toNat
  direction := side

def KindDeclaration.block? : KindDeclaration → Option String
  | hardBlock model => some model
  | _ => none

/-- A model after its name has been declared again. -/
def Model.redeclare (x : Model) (m : ModelDeclaration) : Model where
  name := x.name
  inputs := m.inputs.map (PortDeclaration.modelPort .input)
  outputs := m.outputs.map (PortDeclaration.modelPort .output)
  used := x.used || m.used

namespace ModelDeclaration

def last? (decls : List ModelDeclaration) (name : String) : Option ModelDeclaration :=
  decls.reverse.find? (·.name = name)

def portsOn (m : ModelDeclaration) : Direction → List PortDeclaration
  | .input => m.inputs
  | .output => m.outputs

def lastPorts (side : Direction) (decls : List ModelDeclaration) (name : String) : List ModelPort :=
  ((last? decls name).elim [] (·.portsOn side)).map (PortDeclaration.modelPort side)

/-- The model of a name that declarations make together with the models of hard blocks. -/
def interface (decls : List ModelDeclaration) (blocks : List String) (name : String) : Model where
  name
  inputs := lastPorts .input decls name
  outputs := lastPorts .output decls name
  used := decls.any (fun m => m.name = name && m.used) || blocks.contains name

/-- The models that declarations make, in the order in which their names come first. -/
def interfaces (decls : List ModelDeclaration) (blocks : List String) : List Model :=
  (decls.map (·.name)).eraseDups.map (interface decls blocks)

variable {decls : List ModelDeclaration} {m : ModelDeclaration} {blocks : List String} {name : String}

theorem last?_concat (decls : List ModelDeclaration) (m : ModelDeclaration) (name : String) :
    last? (decls ++ [m]) name = if m.name = name then some m else last? decls name := by
  rw [last?, List.reverse_append, List.reverse_singleton, List.singleton_append, List.find?_cons]
  by_cases h : m.name = name <;> simp [h, last?]

/-- The last declaration of a name stands after all others of that name. -/
theorem last?_eq_some_iff : last? decls name = some m ↔
    m.name = name ∧ ∃ before after, decls = before ++ m :: after ∧ ∀ later ∈ after, later.name ≠ name := by
  rw [last?, List.find?_eq_some_iff_append]
  simp only [decide_eq_true_eq, Bool.not_eq_true', decide_eq_false_iff_not]
  refine and_congr_right fun _ => ?_
  constructor
  · rintro ⟨after, before, hdecls, hafter⟩
    refine ⟨before.reverse, after.reverse, ?_, ?_⟩
    · rw [← List.reverse_reverse decls, hdecls]
      simp
    · simpa using hafter
  · rintro ⟨before, after, rfl, hafter⟩
    exact ⟨after.reverse, before.reverse, by simp, by simpa using hafter⟩

theorem exists_last? (h : name ∈ decls.map (·.name)) : ∃ m, last? decls name = some m := by
  obtain ⟨m, hm, hname⟩ := List.mem_map.mp h
  refine Option.isSome_iff_exists.mp (List.find?_isSome.mpr ⟨m, List.mem_reverse.mpr hm, ?_⟩)
  exact decide_eq_true hname

/-- A declaration more redeclares the model of its name and no other. -/
theorem interface_concat (decls : List ModelDeclaration) (m : ModelDeclaration) (blocks : List String)
    (name : String) :
    interface (decls ++ [m]) blocks name =
      if name = m.name then (interface decls blocks name).redeclare m else interface decls blocks name := by
  by_cases h : name = m.name
  · subst h
    simp only [interface, Model.redeclare, lastPorts, portsOn, last?_concat, if_true, Option.elim_some,
      List.any_append, List.any_cons, List.any_nil, decide_true, Bool.true_and, Bool.or_false,
      Bool.or_right_comm]
  · simp [interface, lastPorts, last?_concat, h, Ne.symm h]

theorem interface_of_notMem (h : name ∉ decls.map (·.name)) :
    interface decls [] name = { name, inputs := [], outputs := [] } := by
  have hnone : last? decls name = none := by
    rw [last?, List.find?_eq_none]
    intro m hm hname
    exact h (List.mem_map.mpr ⟨m, List.mem_reverse.mp hm, of_decide_eq_true hname⟩)
  have hunused : (decls.any fun m => m.name = name && m.used) = false := by
    rw [List.any_eq_false]
    intro m hm hused
    rw [Bool.and_eq_true, decide_eq_true_eq] at hused
    exact h (List.mem_map.mpr ⟨m, hm, hused.1⟩)
  simp [interface, lastPorts, hnone, hunused]

end ModelDeclaration

namespace Builder

open ModelDeclaration

/-! ### Declaring models -/

theorem declareModel_eq (c : Catalog) (m : ModelDeclaration) :
    declareModel c m =
      let c := c.register m.name (m.inputs.map (PortDeclaration.modelPort .input))
        (m.outputs.map (PortDeclaration.modelPort .output))
      if m.used then c.markUsed m.name else c := rfl

theorem models_declareModel_of_mem {c : Catalog} {m : ModelDeclaration}
    (h : m.name ∈ c.models.map (·.name)) :
    (declareModel c m).models = c.models.map fun x => if x.name = m.name then x.redeclare m else x := by
  rw [declareModel_eq, Catalog.register, if_pos (Catalog.isSome_find?_iff.mpr h)]
  cases hused : m.used with
  | false =>
    refine List.map_congr_left fun x _ => ?_
    simp only [Model.redeclare, hused, Bool.or_false]
  | true =>
    refine List.map_map.trans (List.map_congr_left fun x _ => ?_)
    by_cases hx : x.name = m.name <;> simp [Model.redeclare, hx, hused]

theorem models_declareModel_of_notMem {c : Catalog} {m : ModelDeclaration}
    (h : m.name ∉ c.models.map (·.name)) :
    (declareModel c m).models =
      c.models ++ [Model.redeclare { name := m.name, inputs := [], outputs := [] } m] := by
  rw [declareModel_eq, Catalog.register, if_neg (mt Catalog.isSome_find?_iff.mp h)]
  cases hused : m.used with
  | false => simp [Model.redeclare, hused]
  | true =>
    have hsame : c.models.map (fun x => if x.name = m.name then { x with used := true } else x) =
        c.models :=
      congrArg Catalog.models (Catalog.update_of_notMem h _)
    simp [Catalog.markUsed, Catalog.update, hsame, Model.redeclare, hused]

theorem models_declareModels (decls : List ModelDeclaration) :
    (decls.foldl declareModel {}).models = interfaces decls [] := by
  induction decls using List.reverseRecOn with
  | nil => rfl
  | append_singleton decls m ih =>
    have hnames : (decls.foldl declareModel {}).models.map (·.name) =
        (decls.map (·.name)).eraseDups := by
      rw [ih, interfaces, List.map_map]
      exact List.map_id _
    rw [List.foldl_append, List.foldl_cons, List.foldl_nil, interfaces, List.map_append,
      List.map_singleton, eraseDups_concat]
    by_cases hmem : m.name ∈ decls.map (·.name)
    · rw [models_declareModel_of_mem (by rwa [hnames, List.mem_eraseDups]), if_pos hmem, ih, interfaces,
        List.map_map]
      exact List.map_congr_left fun name _ => (interface_concat decls m [] name).symm
    · rw [models_declareModel_of_notMem (by rwa [hnames, List.mem_eraseDups]), if_neg hmem, ih,
        List.map_append, List.map_singleton, interface_concat, if_pos rfl, interface_of_notMem hmem]
      congr 1
      refine List.map_congr_left fun name hname => ?_
      rw [interface_concat, if_neg]
      rintro rfl
      exact hmem (List.mem_eraseDups.mp hname)

/-! ### Instances -/

theorem models_markUsed {c : Catalog} {decls : List ModelDeclaration} {blocks : List String}
    (h : c.models = interfaces decls blocks) (model : String) :
    (c.markUsed model).models = interfaces decls (blocks ++ [model]) := by
  rw [Catalog.markUsed, Catalog.update, h, interfaces, List.map_map]
  refine List.map_congr_left fun name _ => ?_
  by_cases hname : name = model
  · subst hname
    simp [interface]
  · simp [interface, hname]

theorem models_markModel {c : Catalog} {decls : List ModelDeclaration} {blocks : List String}
    (h : c.models = interfaces decls blocks) {decl : KindDeclaration} {kind : NodeKind}
    (hkind : decl.toKind = .ok kind) :
    (markModel c kind).models = interfaces decls (blocks ++ decl.block?.toList) := by
  cases kind with
  | hardBlock model =>
    rw [(KindDeclaration.eq_hardBlock_iff hkind).mp rfl]
    exact models_markUsed h model
  | _ =>
    have hnone : decl.block? = none := by
      cases decl with
      | hardBlock model => cases hkind
      | _ => rfl
    rw [hnone, Option.toList_none, List.append_nil]
    exact h

theorem models_addNodes {b b' : Builder} {models : List ModelDeclaration} {blocks : List String}
    (hb : b.catalog.models = interfaces models blocks) {decls : List NodeDeclaration}
    (h : decls.foldlM addNode b = .ok b') :
    b'.catalog.models = interfaces models (blocks ++ decls.filterMap (·.kind.block?)) := by
  induction decls generalizing b blocks with
  | nil =>
    cases h
    rw [List.filterMap_nil, List.append_nil]
    exact hb
  | cons decl decls ih =>
    obtain ⟨b₁, hfirst, hrest⟩ := bind_eq_ok_iff.mp h
    obtain ⟨kind, hkind, hsame⟩ := sameRecords_addNode hfirst
    have hmodels : b₁.catalog.models = interfaces models (blocks ++ decl.kind.block?.toList) := by
      rw [hsame.catalog]
      exact models_markModel hb hkind
    rw [ih hmodels hrest, List.append_assoc]
    cases hblock : decl.kind.block? <;> simp [hblock]

end Builder

namespace CircuitDescription

variable {d : CircuitDescription} {circuit : Circuit}

def blocks (d : CircuitDescription) : List String := d.nodes.filterMap (·.kind.block?)

/-- The models that a description declares, as they are once all of it has been read. -/
def interfaces (d : CircuitDescription) : List Model := ModelDeclaration.interfaces d.models d.blocks

theorem mem_blocks {model : String} : model ∈ d.blocks ↔ ∃ n ∈ d.nodes, n.kind = .hardBlock model := by
  rw [blocks, List.mem_filterMap]
  refine exists_congr fun n => and_congr_right fun _ => ?_
  cases n.kind <;> simp [KindDeclaration.block?]

/-- The models of a circuit are those that its description declares. -/
theorem models_of_build (h : d.build = .ok circuit) : circuit.catalog.models = d.interfaces := by
  obtain ⟨b, hnodes, h⟩ := bind_eq_ok_iff.mp h
  cases h
  have hstart : (Builder.start d).catalog.models = ModelDeclaration.interfaces d.models [] := by
    refine List.foldlRecOn (motive := fun b : Builder => b.catalog.models = _) _ _ ?_ fun b hb _ _ => hb
    exact Builder.models_declareModels d.models
  have houtputs : (d.outputs.foldl Builder.addOutput b).catalog = b.catalog := by
    refine List.foldlRecOn (motive := fun b' : Builder => b'.catalog = b.catalog) _ _ rfl ?_
    intro b' hb' name _
    exact (Builder.sameRecords_netOf b' name).catalog.trans hb'
  dsimp only
  rw [houtputs, Builder.models_addNodes hstart hnodes, List.nil_append]
  rfl

end CircuitDescription

end CircuitLowering
