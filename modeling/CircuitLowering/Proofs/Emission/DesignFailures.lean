import CircuitLowering.Proofs.Circuit.PrimitiveNames
import CircuitLowering.Proofs.Emission.Completion
import CircuitLowering.Proofs.Emission.Interfaces

/-!
# Designs of circuits that are written in BLIF

BLIF takes the names of bits as they are, while a design reads them again in order to put ports together.
Where a circuit is written in BLIF, all that can keep it from becoming a design are therefore the widths
of buses, and `Circuit.Regroups` says exactly when they do not (`design_of_writeBlif`).  The name of a cell
is never taken, since primitives have distinct names.
-/

namespace CircuitLowering

open Netlist Text

namespace Netlist

/-- The names of bits of buses under which the pins of a node are bound, by base and index. -/
def busBits (nl : Netlist) (n : Node) : List (String × Nat) :=
  ((n.inputSlots ++ n.outputSlots).map nl.bindingName).filterMap Subscript.split?

variable {nl nl' : Netlist}

theorem busBits_tieAll (nl : Netlist) (ids : List PinId) (n : Node) :
    (nl.tieAll ids).busBits n = nl.busBits n := by
  have hnames : (nl.tieAll ids).bindingName = nl.bindingName :=
    nl.tieAll_keeps ids (·.bindingName) fun nl id => funext (nl.bindingName_tie id)
  rw [busBits, hnames, busBits]

theorem busBits_of_graph (h : nl'.graph = nl.graph) : nl'.busBits = nl.busBits := by
  have hmapping : nl'.mapping? = nl.mapping? :=
    funext (map_pins_of_graph h (·.mapping) fun _ => rfl)
  funext n
  unfold busBits bindingName
  rw [hmapping]

end Netlist

namespace Emit

variable {r : Run} {c : Context}

/-! ### Nodes -/

/-- A primitive is bound to buses by the names of the pins of its node. -/
theorem busBits_of_assemble {id : NodeId} {n : Node} {p : Primitive} {s : Run}
    (hn : r.netlist.nodes[id]? = some n) (h : assemble id r = .ok p s) :
    p.busBits = r.netlist.busBits n := by
  obtain ⟨-, hinputs, houtputs⟩ := (assemble_ends hn).of_ok h
  replace hinputs := congrArg (List.map Prod.fst) hinputs
  replace houtputs := congrArg (List.map Prod.fst) houtputs
  rw [List.map_map, List.map_map] at hinputs houtputs
  rw [Primitive.busBits, busBits, List.map_append]
  exact congrArg (List.filterMap Subscript.split?) (congrArg₂ (· ++ ·) hinputs houtputs)

/-- A cell of a name that no cell has yet comes last. -/
theorem completesIff_addCell (c : Context) (n : Node) {m : Module} {name : String} (cell : Cell)
    (hnew : name ∉ m.cells.names) :
    CompletesIff (do
      let m ← demand (m.addCell name cell)
      countEmitted c n
      return some m) r True
      fun extended _ => ∃ m', extended = some m' ∧ m'.cells.names = m.cells.names ++ [name] := by
  have hadd : m.addCell name cell = .ok { m with cells := m.cells.insert name cell } :=
    if_neg (mt (m.cells.contains_iff name).mp hnew)
  rw [hadd]
  refine completesIff_ok_bind rfl ?_
  refine (regular_countEmitted c n).completesIff_bind fun _ _ _ => completesIff_pure trivial ?_
  exact ⟨_, rfl, Ordered.names_insert_of_notMem hnew cell⟩

theorem completesIff_emitCell {d : Design} {models : List Model} {m : Module} {id : NodeId} {n : Node}
    (hr : r.netlist.Ready c.config.traversalMark) (hn : r.netlist.nodes[id]? = some n)
    (hd : d.HasBlackboxes models)
    (hsized : n.kind.isPrimitive → 0 < n.firstInputSize ∧ 0 < n.firstOutputSize)
    (hnew : n.kind.isPrimitive → n.name ∉ m.cells.names) :
    CompletesIff (emitCell c d m id) r
      (n.kind.isPrimitive → n.CellFits (r.netlist.busBits n) models)
      fun extended _ => (extended.getD m).cells.names =
        m.cells.names ++ if n.kind.isPrimitive then [n.name] else [] := by
  unfold emitCell
  refine completesIff_ok_bind (ask_eq_ok (node_eq_ok_iff.mpr hn)) ?_
  by_cases hkind : n.kind.isPrimitive
  · rw [if_pos hkind]
    refine completesIff_ok_bind (instantiate_eq_ok hn (hr.prepared.instantiated id n hn hkind)) ?_
    refine (regular_assemble hr.wired hn (hsized hkind).1 (hsized hkind).2).completesIff_bind ?_
    intro p s hp
    obtain ⟨htype, -, -⟩ := (assemble_ends hn).of_ok hp
    obtain ⟨hname, -, -⟩ := (assemble_firstPorts hn).of_ok hp
    obtain ⟨hshape, hinputs⟩ := shape_of_assemble hn (hr.prepared.sized id n hn) hp
    have hmade := completesIff_demand (r := s)
      (Cell.answersIff_ofPrimitive m hd hkind hshape htype hinputs)
    rw [busBits_of_assemble hn hp] at hmade
    refine (hmade.bind (D := True) ?_).imp (by simp [hkind]) fun _ _ h => h
    rintro ⟨cell, m'⟩ s' _ ⟨rfl, hcell, -⟩
    have hcells : m'.cells.names = m.cells.names :=
      congrArg Ordered.names (Cell.keeps_ofPrimitive hcell).cells
    rw [if_pos hkind, ← hcells, ← hname]
    refine (completesIff_addCell c n cell ?_).imp Iff.rfl ?_
    · rw [hname, hcells]
      exact hnew hkind
    · rintro _ _ ⟨m'', rfl, hm''⟩
      exact hm''
  · rw [if_neg hkind]
    refine (regular_skip n).completesIff_bind fun _ _ _ => completesIff_pure (fun h => absurd h hkind) ?_
    rw [if_neg hkind]
    exact (List.append_nil _).symm

theorem completesIff_emitCells {d : Design} {models : List Model} {m : Module} {ids : List NodeId}
    {ns : List Node} (hr : r.netlist.Ready c.config.traversalMark)
    (hids : ids.map (r.netlist.nodes[·]?) = ns.map some) (hd : d.HasBlackboxes models)
    (hsized : ∀ n ∈ ns, n.kind.isPrimitive → 0 < n.firstInputSize ∧ 0 < n.firstOutputSize)
    (hnodup : (m.cells.names ++ Node.primitiveNames ns).Nodup) :
    CompletesIff (emitCells c d m ids) r
      (∀ n ∈ ns, n.kind.isPrimitive → n.CellFits (r.netlist.busBits n) models) fun _ _ => True := by
  induction ids generalizing r m ns with
  | nil =>
    rw [List.map_nil, eq_comm, List.map_eq_nil_iff] at hids
    subst hids
    exact completesIff_pure (by simp) trivial
  | cons id ids ih =>
    cases ns with
    | nil => exact nomatch hids
    | cons n ns =>
      obtain ⟨hn, hrest⟩ := List.cons.inj hids
      obtain ⟨hfirst, hothers⟩ := List.forall_mem_cons.mp hsized
      rw [Node.primitiveNames_cons, ← List.append_assoc] at hnodup
      have hnew : n.kind.isPrimitive → n.name ∉ m.cells.names := by
        intro hkind hold
        rw [if_pos hkind] at hnodup
        have hfront := (List.nodup_append.mp hnodup).1
        exact (List.nodup_append.mp hfront).2.2 _ hold _ (List.mem_singleton.mpr rfl) rfl
      refine ((completesIff_emitCell hr hn hd hfirst hnew).bind
        (D := ∀ n ∈ ns, n.kind.isPrimitive → n.CellFits (r.netlist.busBits n) models)
        fun extended s hs hnames => ?_).imp (by simp) fun _ _ h => h
      obtain ⟨-, hsettles, -⟩ := (emitCell_writes c d m hr.prepared hn).of_ok hs
      rw [← hnames] at hnodup
      have hbits : s.netlist.busBits = r.netlist.busBits := by
        rw [hsettles.netlist]
        exact funext (r.netlist.busBits_tieAll _)
      rw [← hbits]
      exact ih (hsettles.ready hr) (hsettles.nodes ▸ hrest) hothers hnodup

/-! ### Outputs -/

/-- The wire of an output and the bit of its driver are equally wide. -/
theorem regular_joinOutputs (m : Module) {ids : List NodeId} (hnl : r.netlist.Wired)
    (hids : ∀ k ∈ ids, r.netlist.pinsOfNode k .input ≠ []) : Regular (joinOutputs m ids) r := by
  induction ids generalizing r m with
  | nil => exact regular_pure m
  | cons id ids ih =>
    apply regular_output_bind hnl (hids id List.mem_cons_self)
    intro n d s read hsettles
    rcases m.driverBit d with ⟨bit, m₁⟩
    have hrest (m₂ : Module) : Regular (joinOutputs m₂ ids) s := by
      apply ih
      · exact hsettles.netlist ▸ hnl.tieAll read
      · rw [hsettles.pinsOfNode]
        exact fun k hk => hids k (List.mem_cons_of_mem _ hk)
    dsimp only
    split
    · refine (regular_pure m₁).bind fun m₂ s' hs' => ?_
      cases hs'
      exact hrest m₁
    · have hconnect : m₁.connect (Signal.ofWire n.name 1) [bit] = .ok _ := if_pos rfl
      rw [hconnect]
      refine (regular_pure _).bind fun m₂ s' hs' => ?_
      cases hs'
      exact hrest _

/-! ### Circuits that are written in BLIF -/

def HaveFirstPorts (ns : List Node) : Prop :=
  ∀ n ∈ ns, n.kind.isPrimitive → 0 < n.firstInputSize ∧ 0 < n.firstOutputSize

theorem emitBlif_firstPorts {id : NodeId} {n : Node} (hnl : r.netlist.Prepared c.config.traversalMark)
    (hn : r.netlist.nodes[id]? = some n) :
    Ends (emitBlif c id) r (fun _ _ => HaveFirstPorts [n]) fun _ _ => True := by
  unfold emitBlif HaveFirstPorts
  simp only [List.forall_mem_singleton]
  refine Ends.bind (ends_ask fun n' hn' => ?_)
  cases hn.symm.trans (node_eq_ok_iff.mp hn')
  by_cases hkind : n.kind.isPrimitive
  · rw [if_pos hkind]
    refine Ends.bind (ends_of_ok (instantiate_eq_ok hn (hnl.instantiated id n hn hkind)) ?_)
    refine Ends.bind ((assemble_firstPorts hn).imp ?_ fun _ _ _ => trivial)
    intro p s hp
    exact ends_of_forall fun _ _ _ => hp.2
  · exact ends_of_forall fun _ _ h => absurd h hkind

theorem emitBlifAll_firstPorts (text : String) {ids : List NodeId} {ns : List Node}
    (hnl : r.netlist.Prepared c.config.traversalMark)
    (hids : ids.map (r.netlist.nodes[·]?) = ns.map some) :
    Ends (emitBlifAll c text ids) r (fun _ _ => HaveFirstPorts ns) fun _ _ => True := by
  induction ids generalizing r text ns with
  | nil =>
    rw [List.map_nil, eq_comm, List.map_eq_nil_iff] at hids
    subst hids
    exact ends_pure (by simp [HaveFirstPorts])
  | cons id ids ih =>
    cases ns with
    | nil => exact nomatch hids
    | cons n ns =>
      obtain ⟨hn, hrest⟩ := List.cons.inj hids
      refine Ends.bind (((emitBlif_writes c hnl hn).and (emitBlif_firstPorts hnl hn)).imp ?_
        fun _ _ _ => trivial)
      rintro statement s ⟨⟨-, hsettles, -⟩, hfirst⟩
      have hprepared : s.netlist.Prepared c.config.traversalMark := by
        rw [hsettles.netlist]
        exact hnl.tieAll _
      refine (ih _ hprepared (hsettles.nodes ▸ hrest)).imp ?_ fun _ _ _ => trivial
      exact fun _ _ hothers => List.forall_mem_cons.mpr ⟨hfirst n (List.mem_singleton.mpr rfl), hothers⟩

variable (c) in
/-- A circuit that was written has no primitive without pins in its first ports. -/
theorem writeBlif_firstPorts (hnl : r.netlist.CrossReferenced) :
    Ends (writeBlif c) r
      (fun _ _ => HaveFirstPorts (r.netlist.instantiateAll c.config.traversalMark).nodes.toList)
      fun _ _ => True := by
  have hprepared := hnl.prepared c.config.traversalMark
  unfold writeBlif
  refine Ends.bind (ends_modifyNetlist (Ends.bind (ends_get (ends_tell_bind_any ?_))))
  intro r₀ hr₀
  dsimp only at hr₀ ⊢
  rw [← hr₀] at hprepared ⊢
  refine Ends.bind ((emitBlifAll_firstPorts "" hprepared (map_range_nodes r₀.netlist)).imp ?_
    fun _ _ _ => trivial)
  exact fun _ _ hsized => ends_of_forall fun _ _ => hsized

/-! ### Circuits that become designs -/

theorem cells_addBoundary (direction : Direction) (m : Module) (names : List String) :
    (addBoundary direction m names).cells = m.cells := by
  unfold addBoundary
  induction names generalizing m with
  | nil => rfl
  | cons name names ih => exact (ih _).trans (m.keeps_addWire name 1).cells

theorem regular_insertModule (d : Design) (name : String) (m : Module) :
    Regular (insertModule d name m) r := by
  unfold insertModule
  split
  · exact regular_pure _
  · exact regular_fail _

theorem hardBlockModels_of_graph {nl nl' : Netlist} (h : nl'.graph = nl.graph) :
    hardBlockModels nl' = hardBlockModels nl := by
  have hgraph (nl : Netlist) : hardBlockModels nl.graph = hardBlockModels nl := by
    simp [hardBlockModels, graph, List.filterMap_map]
  rw [← hgraph, h, hgraph]

def declaredModels (c : Context) (nl : Netlist) : List Model :=
  c.catalog.blackboxModels (hardBlockModels nl)

/-- What matters of the models that were referenced is which they are. -/
theorem blackboxModels_reference {report : Report} (h : report.referencedModels = [])
    (catalog : Catalog) (models : List String) :
    catalog.blackboxModels (models.foldl (fun report model => report.reference model)
        report).referencedModels = catalog.blackboxModels models := by
  refine List.filter_congr fun m _ => ?_
  have hmem : m.name ∈ (models.foldl (fun report model => report.reference model)
      report).referencedModels ↔ m.name ∈ models := by
    rw [mem_referencedModels_foldl, h]
    simp
  simp only [Catalog.isWanted, List.contains_eq_mem, hmem]

theorem completesIff_addBlackboxes (hmodels : (c.catalog.models.map (·.name)).Nodup) {models : List Model}
    (hdeclared : c.catalog.blackboxModels r.report.referencedModels = models) :
    CompletesIff (addBlackboxes c {}) r (∀ m ∈ models, m.Regroups)
      fun answer _ => answer.2 = none ∧ answer.1.HasBlackboxes models := by
  subst hdeclared
  refine completesIff_ok_bind rfl ?_
  refine completesIff_declareModules _ Design.hasBlackboxes_empty ?_
  exact hmodels.sublist (List.filter_sublist.map fun m : Model => m.name)

/-- The module of a circuit is made where its cells are. -/
theorem completesIff_topModule {d : Design} {models : List Model}
    (hready : r.netlist.Ready c.config.traversalMark) (hd : d.HasBlackboxes models)
    (hsized : HaveFirstPorts r.netlist.nodes.toList)
    (hnames : (Node.primitiveNames r.netlist.nodes.toList).Nodup) :
    CompletesIff (do
      let m := addBoundary .input {} (← names r.netlist.topInputs)
      let m := addBoundary .output m (← names r.netlist.topOutputs)
      let m ← emitCells c d m (List.range r.netlist.nodes.size)
      let m ← joinOutputs m r.netlist.topOutputs
      let d ← insertModule d c.config.topModule m.numberPorts
      return { d with top := some c.config.topModule }) r
      (∀ n ∈ r.netlist.nodes.toList, n.kind.isPrimitive → n.CellFits (r.netlist.busBits n) models)
      fun _ _ => True := by
  refine (regular_names hready.accessible.inputs).completesIff_bind fun inputs s hs => ?_
  obtain ⟨-, -, rfl⟩ := (names_reads _).of_ok hs
  have houtputs : ∀ k ∈ s.netlist.topOutputs, k < s.netlist.nodes.size :=
    fun k hk => hready.accessible.lt_of_output hk
  refine (regular_names houtputs).completesIff_bind fun outputs s' hs' => ?_
  obtain ⟨-, -, rfl⟩ := (names_reads _).of_ok hs'
  have hids := map_range_nodes s'.netlist
  have hempty : (addBoundary .output (addBoundary .input {} inputs) outputs).cells.names = [] := by
    rw [cells_addBoundary, cells_addBoundary]
    rfl
  rw [← List.nil_append (Node.primitiveNames _), ← hempty] at hnames
  refine ((completesIff_emitCells hready hids hd hsized hnames).bind (D := True)
    fun m r₂ hr₂ _ => ?_).imp (by simp) fun _ _ h => h
  obtain ⟨-, hsettles, -⟩ := (emitCells_writes c d _ hready.prepared hids).of_ok hr₂
  have hpins : ∀ k ∈ s'.netlist.topOutputs, r₂.netlist.pinsOfNode k .input ≠ [] := by
    rw [hsettles.pinsOfNode]
    exact hready.accessible.outputs
  refine (regular_joinOutputs m (hsettles.ready hready).wired hpins).completesIff_bind fun _ _ _ => ?_
  exact (regular_insertModule _ _ _).completesIff_bind fun _ _ _ => completesIff_pure trivial trivial

theorem completesIff_buildDesign {nl : Netlist} (hreferenced : r.report.referencedModels = [])
    (hnl : r.netlist.instantiateAll c.config.traversalMark = nl)
    (hready : nl.Ready c.config.traversalMark) (hmodels : (c.catalog.models.map (·.name)).Nodup)
    (hsized : HaveFirstPorts nl.nodes.toList) (hnames : (Node.primitiveNames nl.nodes.toList).Nodup) :
    CompletesIff (buildDesign c) r
      ((∀ m ∈ declaredModels c nl, m.Regroups) ∧
        ∀ n ∈ nl.nodes.toList, n.kind.isPrimitive → n.CellFits (nl.busBits n) (declaredModels c nl))
      fun _ _ => True := by
  unfold buildDesign
  refine completesIff_ok_bind rfl (completesIff_ok_bind rfl ?_)
  refine completesIff_ok_bind rfl (completesIff_ok_bind rfl ?_)
  dsimp only
  rw [hnl]
  generalize hstart : ({ netlist := nl, report := _, log := _ } : Run) = r₀
  have hnetlist : r₀.netlist = nl := by rw [← hstart]
  have hdeclared : c.catalog.blackboxModels r₀.report.referencedModels = declaredModels c nl := by
    rw [← hstart]
    exact blackboxModels_reference hreferenced c.catalog (hardBlockModels nl)
  clear hstart hnl
  subst hnetlist
  refine (completesIff_addBlackboxes hmodels hdeclared).bind ?_
  rintro ⟨d, clash⟩ r₁ hr₁ ⟨rfl, hd⟩
  have hnetlist₁ : r₁.netlist = r₀.netlist := ((addBlackboxes_reads c).of_ok hr₁).2.1.netlist
  rw [← hnetlist₁] at hready hsized hnames hd ⊢
  exact completesIff_topModule hready hd hsized hnames

end Emit

def Circuit.declaredModels (circuit : Circuit) (config : Config) : List Model :=
  Emit.declaredModels (Context.new circuit.catalog config) circuit.netlist

/-- Whether all buses of a circuit, those of models and those of cells, can be put together from the names
of their bits. -/
structure Circuit.Regroups (circuit : Circuit) (config : Config) : Prop where
  models : ∀ m ∈ circuit.declaredModels config, m.Regroups
  cells : ∀ n ∈ circuit.netlist.nodes.toList, n.kind.isPrimitive →
    n.CellFits (circuit.netlist.busBits n) (circuit.declaredModels config)

theorem Circuit.regroups_iff (circuit : Circuit) (config : Config) {nl : Netlist}
    (h : nl.graph = circuit.netlist.graph) :
    circuit.Regroups config ↔
      (∀ m ∈ Emit.declaredModels (Context.new circuit.catalog config) nl, m.Regroups) ∧
        ∀ n ∈ nl.nodes.toList, n.kind.isPrimitive →
          n.CellFits (nl.busBits n) (Emit.declaredModels (Context.new circuit.catalog config) nl) := by
  have hdeclared : Emit.declaredModels (Context.new circuit.catalog config) nl =
      circuit.declaredModels config := by
    rw [declaredModels, Emit.declaredModels, Emit.hardBlockModels_of_graph h]
    rfl
  rw [hdeclared, busBits_of_graph h, forall_nodes_of_graph h]
  · exact ⟨fun h => ⟨h.models, h.cells⟩, fun h => ⟨h.1, h.2⟩⟩
  · intro n
    exact ⟨fun h hkind => ⟨(h hkind).table, (h hkind).indices, (h hkind).callees⟩,
      fun h hkind => ⟨(h hkind).table, (h hkind).indices, (h hkind).callees⟩⟩

/-- A circuit that is written in BLIF becomes a design just where its buses can be put together from the
names of their bits.  Where they cannot, two signals differ in width or a width is too large: no name of a
cell is taken, and there is no other way to fail. -/
theorem design_of_writeBlif {d : CircuitDescription} {circuit : Circuit} (hbuild : d.build = .ok circuit)
    (config : Config) {text : String} {r' : Run}
    (hblif : Emit.writeBlif (Context.new circuit.catalog config) { netlist := circuit.netlist } =
      .ok text r') :
    ((∃ design r'', Emit.buildDesign (Context.new circuit.catalog config)
        { netlist := circuit.netlist } = .ok design r'') ↔ circuit.Regroups config) ∧
      ∀ failure r'', Emit.buildDesign (Context.new circuit.catalog config)
        { netlist := circuit.netlist } = .error failure r'' →
          failure = .fault .widthMismatch ∨ failure = .fault .overflow := by
  obtain ⟨hpowered, hdistinct⟩ := CircuitDescription.sound_build hbuild
  have hmodels : ((Context.new circuit.catalog config).catalog.models.map (·.name)).Nodup := by
    rwa [Context.new, Catalog.map_applyMemorySizes _ _ (·.name) fun _ _ _ => rfl]
  have hcross := hpowered.toCrossReferenced
  have hgraph := circuit.netlist.graph_instantiateAll config.traversalMark
  have hsized := (Emit.writeBlif_firstPorts (Context.new circuit.catalog config)
    (r := { netlist := circuit.netlist }) hcross).of_ok hblif
  have hnames := CircuitDescription.nodup_primitiveNames_of_build hbuild
  rw [← primitiveNames_of_graph hgraph] at hnames
  have hcompletes := Emit.completesIff_buildDesign (c := Context.new circuit.catalog config)
    (r := { netlist := circuit.netlist }) rfl rfl
    (CircuitDescription.ready_of_build hbuild config.traversalMark) hmodels hsized hnames
  -- the errors of the circuit are those of BLIF, and there were none
  have hnone := ((Emit.writeBlif_writes _ hcross).of_ok hblif).1
  have herrors := Emit.buildDesign_writes (r := { netlist := circuit.netlist })
    (Context.new circuit.catalog config) hcross
  rw [Emit.designError?_eq hmodels] at herrors
  rw [circuit.regroups_iff config hgraph]
  unfold Emit.CompletesIff at hcompletes
  cases hdesign : Emit.buildDesign (Context.new circuit.catalog config)
      { netlist := circuit.netlist } with
  | ok design r'' =>
    rw [hdesign] at hcompletes
    refine ⟨⟨fun _ => hcompletes.1, fun _ => ⟨design, r'', rfl⟩⟩, ?_⟩
    intro _ _ h
    cases h
  | error failure r'' =>
    rw [hdesign] at hcompletes
    cases failure with
    | error e =>
      have hsome := (Emit.Ends.of_error herrors hdesign).1
      rw [hnone] at hsome
      cases hsome
    | violated i => exact hcompletes.elim
    | fault f =>
      refine ⟨⟨fun h => ?_, fun h => absurd h hcompletes.1⟩, ?_⟩
      · obtain ⟨_, _, h⟩ := h
        cases h
      · intro failure _ h
        cases h
        rcases hcompletes.2 with rfl | rfl
        · exact .inl rfl
        · exact .inr rfl

/-- An instance of a model with ports of two bits. -/
def busDescription : CircuitDescription where
  models := [{ name := "ram", inputs := [⟨"d", 2⟩], outputs := [⟨"q", 2⟩] }]
  inputs := ["a", "b"]
  nodes := [
    { name := "u"
      kind := .hardBlock "ram"
      inputs := [{ mapping := "d", nets := [some "a", some "b"] }]
      outputs := [{ mapping := "q", nets := [none, none] }] }]

def busCircuit : Circuit := busDescription.build.toOption.getD ⟨none, {}, {}⟩

theorem design_busCircuit :
    busDescription.build = .ok busCircuit ∧
      (∃ text r', Emit.writeBlif (Context.new busCircuit.catalog {})
        { netlist := busCircuit.netlist } = .ok text r') ∧
      (∃ design r'', Emit.buildDesign (Context.new busCircuit.catalog {})
        { netlist := busCircuit.netlist } = .ok design r'') ∧
      busCircuit.Regroups {} := by
  have hbuild : busDescription.build = .ok busCircuit := eq_ok_getD (by decide +kernel) _
  have hwritten : Emit.succeeds (Emit.writeBlif (Context.new busCircuit.catalog {}))
      { netlist := busCircuit.netlist } = true := by decide +kernel
  have hbuilt : Emit.succeeds (Emit.buildDesign (Context.new busCircuit.catalog {}))
      { netlist := busCircuit.netlist } = true := by decide +kernel
  obtain ⟨text, r', hblif⟩ := Emit.succeeds_iff.mp hwritten
  have hdesign := Emit.succeeds_iff.mp hbuilt
  exact ⟨hbuild, ⟨text, r', hblif⟩, hdesign, (design_of_writeBlif hbuild {} hblif).1.mp hdesign⟩

/-- A model with a port that has the name of a bit of another port. -/
def nestedDescription : CircuitDescription where
  models := [{ name := "m", inputs := [⟨"a[0]", 2⟩, ⟨"a", 2⟩], used := true }]

def nestedCircuit : Circuit := nestedDescription.build.toOption.getD ⟨none, {}, {}⟩

/-- A model with a port that has the name of a bit with the last index. -/
def lastIndexDescription : CircuitDescription where
  models := [{ name := "m", inputs := [⟨"a[18446744073709551615]", 1⟩], used := true }]

def lastIndexCircuit : Circuit := lastIndexDescription.build.toOption.getD ⟨none, {}, {}⟩

/-- In BLIF the names of such ports are written as they are, and no design can be built. -/
theorem fault_nestedCircuit :
    nestedDescription.build = .ok nestedCircuit ∧
      Emit.succeeds (Emit.writeBlif (Context.new nestedCircuit.catalog {}))
        { netlist := nestedCircuit.netlist } = true ∧
      (Emit.answer (Emit.buildDesign (Context.new nestedCircuit.catalog {}))
        { netlist := nestedCircuit.netlist }).map (fun _ => ()) = .error (.fault .widthMismatch) ∧
    lastIndexDescription.build = .ok lastIndexCircuit ∧
      Emit.succeeds (Emit.writeBlif (Context.new lastIndexCircuit.catalog {}))
        { netlist := lastIndexCircuit.netlist } = true ∧
      (Emit.answer (Emit.buildDesign (Context.new lastIndexCircuit.catalog {}))
        { netlist := lastIndexCircuit.netlist }).map (fun _ => ()) = .error (.fault .overflow) := by
  refine ⟨eq_ok_getD (by decide +kernel) _, ?_, ?_, eq_ok_getD (by decide +kernel) _, ?_, ?_⟩
  all_goals decide +kernel

end CircuitLowering
