import CircuitLowering.Proofs.Blif.Texts
import CircuitLowering.Proofs.Catalog.MemorySizes
import CircuitLowering.Proofs.Circuit.Models

/-!
# The models that are declared

Which models a writer declares is said by the description of the circuit and by the settings alone
(`CircuitDescription.declared`): the models that are used, those of the arithmetic path apart, with the
sizes of split memories.  Models that are noted while the circuit is written are models of hard blocks,
and these are used anyway, so what is noted makes no difference (`Catalog.blackboxModels_eq_declared`).
-/

namespace CircuitLowering

open Netlist

def KindDeclaration.isSkipBlock : KindDeclaration → Bool
  | skipBlock _ => true
  | _ => false

namespace CircuitDescription

/-- Whether a description asks for the declaration of a model: the arithmetic path does not provide the
model, and the model is said to be used or has an instance. -/
def Needs (d : CircuitDescription) (model : String) : Prop :=
  model ≠ adderModel ∧ model ≠ multiplyModel ∧
    ((∃ m ∈ d.models, m.name = model ∧ m.used) ∨ ∃ n ∈ d.nodes, n.kind = .hardBlock model)

/-- The models that are declared when the circuit is written. -/
def declared (d : CircuitDescription) (config : Config) : List Model :=
  (d.interfaces.filter fun m => m.used && !isArithmeticModel m.name).map fun m =>
    m.sized (config.memorySize? m.name)

variable {d : CircuitDescription} {circuit : Circuit} {config : Config}

theorem needs_iff {m : Model} (hm : m ∈ d.interfaces) :
    d.Needs m.name ↔ (m.used && !isArithmeticModel m.name) = true := by
  obtain ⟨name, -, rfl⟩ := List.mem_map.mp hm
  simp only [Needs, ModelDeclaration.interface, isArithmeticModel, Bool.and_eq_true, Bool.or_eq_true,
    Bool.not_eq_true', Bool.or_eq_false_iff, beq_eq_false_iff_ne, List.any_eq_true, decide_eq_true_eq,
    List.contains_iff_mem, mem_blocks]
  rw [← and_assoc]
  exact and_comm

/-- What the models of a run are that is set up for a circuit. -/
theorem models_new (hbuild : d.build = .ok circuit) (config : Config) :
    (Context.new circuit.catalog config).catalog.models =
      d.interfaces.map fun m => m.sized (config.memorySize? m.name) := by
  rw [Context.new, Catalog.models_applyMemorySizes, models_of_build hbuild]

/-- The models are declared that are needed, in the order of the catalog. -/
theorem declared_eq_filter (hbuild : d.build = .ok circuit) (config : Config) :
    d.declared config = (Context.new circuit.catalog config).catalog.models.filter fun m =>
      m.used && !isArithmeticModel m.name := by
  rw [models_new hbuild, List.filter_map]
  rfl

theorem declared_sublist (hbuild : d.build = .ok circuit) (config : Config) :
    (d.declared config).Sublist (Context.new circuit.catalog config).catalog.models := by
  rw [declared_eq_filter hbuild]
  exact List.filter_sublist

/-- The models of a run have distinct names. -/
theorem nodup_models_new (hbuild : d.build = .ok circuit) (config : Config) :
    ((Context.new circuit.catalog config).catalog.models.map (·.name)).Nodup := by
  have hnames := circuit.catalog.map_applyMemorySizes config (·.name) fun _ _ _ => rfl
  exact hnames ▸ (sound_build hbuild).2

theorem mem_declared_iff (hbuild : d.build = .ok circuit) {m : Model}
    (hm : m ∈ (Context.new circuit.catalog config).catalog.models) :
    m ∈ d.declared config ↔ d.Needs m.name := by
  rw [declared_eq_filter hbuild, List.mem_filter, and_iff_right hm]
  rw [models_new hbuild, List.mem_map] at hm
  obtain ⟨m', hm', rfl⟩ := hm
  exact (needs_iff hm').symm

/-- A model is declared by its name, since no other model has the name. -/
theorem name_mem_declared_iff (hbuild : d.build = .ok circuit) {m : Model}
    (hm : m ∈ (Context.new circuit.catalog config).catalog.models) :
    m.name ∈ (d.declared config).map (·.name) ↔ d.Needs m.name := by
  rw [← mem_declared_iff hbuild hm]
  refine ⟨fun hname => ?_, List.mem_map_of_mem⟩
  obtain ⟨m', hm', hsame⟩ := List.mem_map.mp hname
  have hm'' := (declared_sublist hbuild config).subset hm'
  rwa [← List.inj_on_of_nodup_map (nodup_models_new hbuild config) hm'' hm hsame]

/-- A model has the ports of its last declaration. -/
theorem ports_of_mem_interfaces {m : Model} (hm : m ∈ d.interfaces) :
    ∃ before last after, d.models = before ++ last :: after ∧ last.name = m.name ∧
      (∀ later ∈ after, later.name ≠ m.name) ∧
      m.inputs = last.inputs.map (PortDeclaration.modelPort .input) ∧
      m.outputs = last.outputs.map (PortDeclaration.modelPort .output) := by
  obtain ⟨name, hname, rfl⟩ := List.mem_map.mp hm
  obtain ⟨last, hlast⟩ := ModelDeclaration.exists_last? (List.mem_eraseDups.mp hname)
  obtain ⟨hsame, before, after, hmodels, hafter⟩ := ModelDeclaration.last?_eq_some_iff.mp hlast
  refine ⟨before, last, after, hmodels, hsame, hafter, ?_, ?_⟩
  · simp [ModelDeclaration.interface, ModelDeclaration.lastPorts, ModelDeclaration.portsOn, hlast]
  · simp [ModelDeclaration.interface, ModelDeclaration.lastPorts, ModelDeclaration.portsOn, hlast]

/-- A model that is declared has the ports of its last declaration, in the sizes of memories. -/
theorem ports_of_mem_declared {m : Model} (hm : m ∈ d.declared config) :
    ∃ before last after, d.models = before ++ last :: after ∧ last.name = m.name ∧
      (∀ later ∈ after, later.name ≠ m.name) ∧
      m = Model.sized
        { name := m.name
          inputs := last.inputs.map (PortDeclaration.modelPort .input)
          outputs := last.outputs.map (PortDeclaration.modelPort .output)
          used := true }
        (config.memorySize? m.name) := by
  obtain ⟨m', hm', rfl⟩ := List.mem_map.mp hm
  rw [List.mem_filter, Bool.and_eq_true] at hm'
  obtain ⟨before, last, after, hmodels, hname, hafter, hinputs, houtputs⟩ :=
    ports_of_mem_interfaces hm'.1
  refine ⟨before, last, after, hmodels, hname, hafter, ?_⟩
  rw [← hinputs, ← houtputs, ← hm'.2.1]
  rfl

/-- Skip blocks make no difference. -/
theorem declared_of_skipBlocks {d' : CircuitDescription} (hmodels : d'.models = d.models)
    (hnodes : (d'.nodes.filter fun n => !n.kind.isSkipBlock) =
      d.nodes.filter fun n => !n.kind.isSkipBlock) (config : Config) :
    d'.declared config = d.declared config := by
  have hblocks (d : CircuitDescription) :
      d.blocks = (d.nodes.filter fun n => !n.kind.isSkipBlock).filterMap (·.kind.block?) := by
    rw [blocks, List.filterMap_filter]
    refine List.filterMap_congr fun n _ => ?_
    cases hkind : n.kind <;> simp [KindDeclaration.isSkipBlock, KindDeclaration.block?]
  rw [declared, interfaces, hmodels, hblocks d', hnodes, ← hblocks d]
  rfl

end CircuitDescription

/-- Models of hard blocks are declared anyway, whether they are noted or not. -/
theorem Catalog.blackboxModels_eq_declared {d : CircuitDescription} {circuit : Circuit}
    (hbuild : d.build = .ok circuit) (config : Config) {referenced : List String}
    (h : ∀ model ∈ referenced, .hardBlock model ∈ circuit.netlist.kinds) :
    (Context.new circuit.catalog config).catalog.blackboxModels referenced = d.declared config := by
  rw [CircuitDescription.declared_eq_filter hbuild, blackboxModels]
  refine List.filter_congr fun m hm => ?_
  suffices hused : m.name ∈ referenced → m.used = true by
    by_cases hname : m.name ∈ referenced
    · simp [isWanted, isReserved, hname, hused hname]
    · simp [isWanted, isReserved, hname]
  intro hname
  obtain ⟨n, hn, hkind⟩ := (CircuitDescription.hardBlock_mem_kinds_iff hbuild).mp (h _ hname)
  rw [CircuitDescription.models_new hbuild, List.mem_map] at hm
  obtain ⟨m', hm', rfl⟩ := hm
  obtain ⟨name, -, rfl⟩ := List.mem_map.mp hm'
  have hblock : name ∈ d.blocks := CircuitDescription.mem_blocks.mpr ⟨n, hn, hkind⟩
  simp [Model.sized, ModelDeclaration.interface, hblock]

namespace Emit

open Catalog

variable {r : Run}

theorem ends_self {α : Type} (x : Emit α) (r : Run) :
    Ends x r (fun a s => x r = .ok a s) fun _ _ => True := by
  unfold Ends
  split
  · assumption
  · trivial
  · trivial

/-! ### In BLIF -/

theorem declareBlif_text (referenced : List String) (ds : Declarations) (models : List Model) :
    Ends (declareBlif referenced ds models) r
      (fun ds' s => s.report.referencedModels = r.report.referencedModels ∧
        (ds'.clash = none → ds'.text = ds.text ++
          String.join ((blackboxModels ⟨models⟩ referenced).map Blif.declarationText)))
      fun _ _ => True := by
  induction models generalizing r ds with
  | nil => exact ends_pure ⟨rfl, fun _ => (String.append_empty).symm⟩
  | cons m models ih =>
    refine Ends.bind (ends_tellAll ?_)
    by_cases hm : isWanted referenced m && !isReserved m
    · rw [if_pos hm, blackboxModels_cons_of_pos hm]
      by_cases htaken : m.name ∈ ds.declared
      · rw [if_pos htaken]
        exact ends_pure ⟨rfl, fun hclash => nomatch hclash⟩
      · rw [if_neg htaken]
        refine Ends.bind (ends_demand fun text htext => Ends.bind (ends_modifyReport ?_))
        refine (ih _).imp (fun ds' s ⟨hreferenced, hdone⟩ => ⟨hreferenced, fun hclash => ?_⟩)
          fun _ _ h => h
        rw [hdone hclash, (Blif.declaration_eq_ok_iff.mp htext).2, String.append_assoc, List.map_cons, String.join_cons]
    · rw [if_neg hm, blackboxModels_cons_of_neg hm]
      exact ih ds

/-- The circuit in BLIF up to the declarations of models. -/
def writeTop (c : Context) : Emit String := do
  modifyNetlist (·.instantiateAll c.config.traversalMark)
  let top := c.config.topModule
  let netlist := (← get).netlist
  tell (.blifStarted top netlist.nodes.size)
  let body ← emitBlifAll c "" (List.range netlist.nodes.size)
  let buffers ← emitBuffers "" netlist.topOutputs
  let inputs ← names netlist.topInputs
  let outputs ← names netlist.topOutputs
  let header := Text.lines [
    ".model " ++ top,
    ".inputs " ++ Text.words inputs,
    ".outputs " ++ Text.words outputs,
    "",
    ".names " ++ Netlist.groundName,
    ".names " ++ Netlist.powerName,
    "1",
    ".names " ++ Netlist.padName,
    ""]
  return header ++ body ++ buffers ++ Text.lines [".end", ""]

/-- Appends the declarations of models to the circuit. -/
def appendModels (c : Context) (top : String) : Emit String := do
  let ds ← emitBlackboxes c [c.config.topModule]
  if let some name := ds.clash then fail (.duplicateModule name)
  return top ++ ds.text

theorem writeBlif_eq (c : Context) : writeBlif c = writeTop c >>= appendModels c := by
  unfold writeBlif writeTop
  simp only [bind_assoc, pure_bind]
  rfl

theorem writeBlif_declares (c : Context) (r : Run) :
    Ends (writeBlif c) r
      (fun text r' => ∃ top s, writeTop c r = .ok top s ∧ text = top ++
        String.join ((c.catalog.blackboxModels r'.report.referencedModels).map Blif.declarationText))
      fun _ _ => True := by
  rw [writeBlif_eq]
  refine Ends.bind ((ends_self (writeTop c) r).imp ?_ fun _ _ _ => trivial)
  intro top s hs
  unfold appendModels
  refine Ends.bind (Ends.bind (ends_get ?_))
  refine (declareBlif_text _ _ _).imp ?_ fun _ _ _ => trivial
  rintro ds s' ⟨hreferenced, hdone⟩
  cases hclash : ds.clash with
  | some name => exact Ends.bind (ends_fail trivial)
  | none =>
    refine ends_pure ⟨top, s, hs, ?_⟩
    rw [hreferenced, hdone hclash, String.empty_append]

/-! ### In designs -/

/-- The modules that are added for models, under the names of the models. -/
theorem declareModules_entries (referenced : List String) (d : Design) (models : List Model) :
    Ends (declareModules referenced d models) r
      (fun answer _ => answer.2 = none → ∃ entries,
        answer.1.modules.entries = d.modules.entries ++ entries ∧
          List.Forall₂ (fun m entry => entry.1 = m.name ∧ m.blackbox = .ok entry.2)
            (blackboxModels ⟨models⟩ referenced) entries)
      fun _ _ => True := by
  induction models generalizing r d with
  | nil => exact ends_pure fun _ => ⟨[], (List.append_nil _).symm, .nil⟩
  | cons m models ih =>
    refine Ends.bind (ends_tellAll ?_)
    by_cases hm : isWanted referenced m && !isReserved m
    · rw [if_pos hm, blackboxModels_cons_of_pos hm]
      by_cases htaken : d.modules.contains m.name = true
      · rw [if_pos htaken]
        exact ends_pure fun hclash => nomatch hclash
      · rw [if_neg htaken]
        refine Ends.bind (ends_tellAll (Ends.bind (ends_demand fun module hmodule => ?_)))
        refine Ends.bind (ends_modifyReport ((ih _).imp ?_ fun _ _ h => h))
        intro answer s hdone hclash
        obtain ⟨entries, hentries, hall⟩ := hdone hclash
        refine ⟨(m.name, module) :: entries, ?_, .cons ⟨rfl, hmodule⟩ hall⟩
        rw [hentries, Ordered.entries_insert_of_notMem (mt (d.modules.contains_iff _).mpr htaken),
          List.append_assoc, List.singleton_append]
    · rw [if_neg hm, blackboxModels_cons_of_neg hm]
      exact ih d

theorem insertModule_entries (d : Design) (name : String) (m : Module) :
    Ends (insertModule d name m) r
      (fun d' _ => d'.modules.entries = d.modules.entries ++ [(name, m)]) fun _ _ => True := by
  unfold insertModule Design.addModule
  by_cases htaken : d.modules.contains name = true
  · rw [if_pos htaken]
    exact ends_fail trivial
  · rw [if_neg htaken]
    exact ends_pure (Ordered.entries_insert_of_notMem (mt (d.modules.contains_iff _).mpr htaken) m)

/-- The modules of a design are the blackboxes of its models, and last the top module. -/
theorem buildDesign_declares (c : Context) (r : Run) :
    Ends (buildDesign c) r
      (fun design _ => ∃ entries top,
        design.modules.entries = entries ++ [(c.config.topModule, top)] ∧
          List.Forall₂ (fun m entry => entry.1 = m.name ∧ m.blackbox = .ok entry.2)
            (c.catalog.blackboxModels
              (referencedTally (r.netlist.instantiateAll c.config.traversalMark)
                r.report).referencedModels) entries)
      fun _ _ => True := by
  unfold buildDesign
  refine Ends.bind (ends_modifyNetlist (Ends.bind (ends_get (Ends.bind (ends_tell ?_)))))
  refine Ends.bind (ends_modifyReport (Ends.bind (Ends.bind (ends_get ?_))))
  refine (declareModules_entries _ _ _).imp ?_ fun _ _ _ => trivial
  rintro ⟨d, clash⟩ s hdone
  cases clash with
  | some name => exact Ends.bind (ends_fail trivial)
  | none =>
    obtain ⟨entries, hentries, hall⟩ := hdone rfl
    refine ends_bind_any fun _ _ => ends_bind_any fun _ _ => ends_bind_any fun _ _ =>
      ends_bind_any fun m s => ?_
    refine Ends.bind ((insertModule_entries d c.config.topModule _).imp ?_ fun _ _ _ => trivial)
    intro d' s hd'
    refine ends_pure ⟨entries, m.numberPorts, ?_, hall⟩
    rw [hd', hentries]
    rfl

/-- What a report lists as declared. -/
theorem blackboxes_freshReport {d : CircuitDescription} {circuit : Circuit} (hbuild : d.build = .ok circuit)
    (config : Config) (models : List String) :
    (freshReport (.new circuit.catalog config) circuit.netlist models).blackboxes =
      (d.declared config).map (·.name) := by
  have hblocks : ∀ model ∈ (countedTally (circuit.netlist.instantiateAll config.traversalMark)
      {}).referencedModels, .hardBlock model ∈ circuit.netlist.kinds := by
    intro model hmodel
    rcases mem_referencedModels_foldl_count.mp hmodel with hnone | ⟨n, hn, -, hkind⟩
    · exact absurd hnone List.not_mem_nil
    · rw [← hkind, ← kinds_of_graph (circuit.netlist.graph_instantiateAll config.traversalMark)]
      exact List.mem_map_of_mem hn
  rw [← blackboxModels_eq_declared hbuild config hblocks]
  rfl

/-- In BLIF the needed models follow the top module. -/
theorem writeBlif_declared {d : CircuitDescription} {circuit : Circuit} (hbuild : d.build = .ok circuit)
    {config : Config} {text : String} {r' : Run}
    (h : writeBlif (.new circuit.catalog config) { netlist := circuit.netlist } = .ok text r') :
    r'.report.blackboxes = (d.declared config).map (·.name) ∧
      ∃ top s, writeTop (.new circuit.catalog config) { netlist := circuit.netlist } = .ok top s ∧
        text = top ++ String.join ((d.declared config).map Blif.declarationText) := by
  have hnl := (CircuitDescription.sound_build hbuild).1.toCrossReferenced
  have hreport := report_writeBlif hnl h
  refine ⟨hreport ▸ blackboxes_freshReport hbuild config _, ?_⟩
  obtain ⟨top, s, hs, htext⟩ := (writeBlif_declares _ _).of_ok h
  refine ⟨top, s, hs, ?_⟩
  rw [htext, blackboxModels_eq_declared hbuild config]
  intro model hmodel
  rw [hreport] at hmodel
  exact List.mem_of_mem_filter (NodeKind.mem_blockModels.mp hmodel)

/-- In a design the modules of the needed models stand before the top module. -/
theorem buildDesign_declared {d : CircuitDescription} {circuit : Circuit} (hbuild : d.build = .ok circuit)
    {config : Config} {design : Design} {r' : Run}
    (h : buildDesign (.new circuit.catalog config) { netlist := circuit.netlist } = .ok design r') :
    r'.report.blackboxes = (d.declared config).map (·.name) ∧
      ∃ entries top, design.modules.entries = entries ++ [(config.topModule, top)] ∧
        List.Forall₂ (fun m entry => entry.1 = m.name ∧ m.blackbox = .ok entry.2)
          (d.declared config) entries := by
  have hnl := (CircuitDescription.sound_build hbuild).1.toCrossReferenced
  rw [report_buildDesign hnl h]
  refine ⟨blackboxes_freshReport hbuild config _, ?_⟩
  obtain ⟨entries, top, hentries, hall⟩ := (buildDesign_declares _ _).of_ok h
  refine ⟨entries, top, hentries, ?_⟩
  rwa [blackboxModels_eq_declared hbuild config] at hall
  intro model hmodel
  rcases mem_referencedModels_foldl.mp hmodel with hnone | hblock
  · exact absurd hnone List.not_mem_nil
  · rw [hardBlockModels_eq, NodeKind.mem_blockModels] at hblock
    rwa [kinds_of_graph (circuit.netlist.graph_instantiateAll _)] at hblock

end Emit

/-- Which models are declared when a circuit is written that was read from a description, in a fresh run.
They are the models of the catalog that the description needs, in the order of the catalog, each once, and
skip blocks make no difference.  A model has the ports of its last declaration, and the settings for split
memories give sizes to the first port of each name.  In BLIF the declarations are all that stands after the
top module; in a design the modules of the models stand before it, each the blackbox of its model.  The
report lists the same models. -/
theorem declared_of_written {d : CircuitDescription} {circuit : Circuit}
    (hbuild : d.build = .ok circuit) (config : Config) :
    let c := Context.new circuit.catalog config
    let r : Run := { netlist := circuit.netlist }
    (d.declared config).Sublist c.catalog.models ∧
    ((d.declared config).map (·.name)).Nodup ∧
    (∀ m ∈ c.catalog.models, m.name ∈ (d.declared config).map (·.name) ↔ d.Needs m.name) ∧
    (∀ m ∈ d.declared config, ∃ before last after,
      d.models = before ++ last :: after ∧ last.name = m.name ∧
      (∀ later ∈ after, later.name ≠ m.name) ∧
      m = Model.sized
        { name := m.name
          inputs := last.inputs.map (PortDeclaration.modelPort .input)
          outputs := last.outputs.map (PortDeclaration.modelPort .output)
          used := true }
        (config.memorySize? m.name)) ∧
    (∀ d' : CircuitDescription, d'.models = d.models →
      (d'.nodes.filter fun n => !n.kind.isSkipBlock) = (d.nodes.filter fun n => !n.kind.isSkipBlock) →
      d'.declared config = d.declared config) ∧
    (∀ text r', Emit.writeBlif c r = .ok text r' →
      r'.report.blackboxes = (d.declared config).map (·.name) ∧
      ∃ top s, Emit.writeTop c r = .ok top s ∧
        text = top ++ String.join ((d.declared config).map Blif.declarationText)) ∧
    ∀ design r', Emit.buildDesign c r = .ok design r' →
      r'.report.blackboxes = (d.declared config).map (·.name) ∧
      ∃ entries top, design.modules.entries = entries ++ [(config.topModule, top)] ∧
        List.Forall₂ (fun m entry => entry.1 = m.name ∧ m.blackbox = .ok entry.2)
          (d.declared config) entries := by
  intro c r
  have hsublist := CircuitDescription.declared_sublist hbuild config
  refine ⟨hsublist, (CircuitDescription.nodup_models_new hbuild config).sublist (hsublist.map _),
    fun m hm => CircuitDescription.name_mem_declared_iff hbuild hm,
    fun m hm => CircuitDescription.ports_of_mem_declared hm,
    fun d' hmodels hnodes => CircuitDescription.declared_of_skipBlocks hmodels hnodes config, ?_, ?_⟩
  · exact fun text r' h => Emit.writeBlif_declared hbuild h
  · exact fun design r' h => Emit.buildDesign_declared hbuild h

/-- A memory with an instance, a model of many ports that is declared twice, one of the arithmetic path, and
one whose only instance is a skip block. -/
def memoryDescription : CircuitDescription where
  models := [
    { name := singlePortRam, inputs := [⟨"addr", 4⟩, ⟨"data", 8⟩], outputs := [⟨"out", 8⟩] },
    { name := "m", inputs := [⟨"a", 1⟩], used := true },
    { name := adderModel, inputs := [⟨"a", 1⟩], used := true },
    { name := "left", inputs := [⟨"a", 1⟩] },
    { name := "m"
      inputs := [⟨"a", 2⟩, ⟨"clk", 1⟩, ⟨"b", 3⟩, ⟨"none", 0⟩]
      outputs := [⟨"o", 1⟩, ⟨"p", 2⟩, ⟨"q", 1⟩] }]
  nodes := [
    { name := "u"
      kind := .hardBlock singlePortRam
      inputs := [{ mapping := "addr", nets := [none] }, { mapping := "data", nets := [none] }]
      outputs := [{ mapping := "out", nets := [none] }] },
    { name := "v"
      kind := .skipBlock "left"
      inputs := [{ mapping := "a", nets := [none] }]
      outputs := [{ mapping := "o", nets := [none] }] }]

def memoryCircuit : Circuit := memoryDescription.build.toOption.getD ⟨none, {}, {}⟩

/-- Memories that were split to words of one bit with addresses of two. -/
def splitConfig : Config where
  splitMemoryWidth := true
  splitMemoryDepth := some 2

theorem declared_memoryDescription : memoryDescription.declared splitConfig =
    [{ name := singlePortRam
       inputs := [.input "addr" 2, .input "data" 1]
       outputs := [.output "out" 1]
       used := true },
      { name := "m"
        inputs := [.input "a" 2, .input "clk" 1, .input "b" 3, .input "none" 0]
        outputs := [.output "o" 1, .output "p" 2, .output "q" 1]
        used := true }] := by
  decide +kernel

/-- The memory and the model that is declared twice are declared. -/
theorem declared_memoryCircuit :
    memoryDescription.build = .ok memoryCircuit ∧
    (∃ text r' top, Emit.writeBlif (.new memoryCircuit.catalog splitConfig)
        { netlist := memoryCircuit.netlist } = .ok text r' ∧
      r'.report.blackboxes = [singlePortRam, "m"] ∧
      text = top ++
        (".model single_port_ram\n.inputs addr[0] addr[1] data\n.outputs out\n.blackbox\n.end\n\n" ++
          ".model m\n.inputs a[0] a[1] clk b[0] b[1] b[2]\n.outputs o p[0] p[1] q\n.blackbox\n.end\n\n")) ∧
    ∃ design r', Emit.buildDesign (.new memoryCircuit.catalog splitConfig)
        { netlist := memoryCircuit.netlist } = .ok design r' ∧
      r'.report.blackboxes = [singlePortRam, "m"] := by
  have hbuild : memoryDescription.build = .ok memoryCircuit := eq_ok_getD (by decide +kernel) _
  have hwritten : Emit.succeeds (Emit.writeBlif (.new memoryCircuit.catalog splitConfig))
      { netlist := memoryCircuit.netlist } = true := by decide +kernel
  have hbuilt : Emit.succeeds (Emit.buildDesign (.new memoryCircuit.catalog splitConfig))
      { netlist := memoryCircuit.netlist } = true := by decide +kernel
  obtain ⟨text, r', htext⟩ := Emit.succeeds_iff.mp hwritten
  obtain ⟨design, r'', hdesign⟩ := Emit.succeeds_iff.mp hbuilt
  obtain ⟨-, -, -, -, -, hblif, hmodules⟩ := declared_of_written hbuild splitConfig
  rw [declared_memoryDescription] at hblif hmodules
  obtain ⟨hblackboxes, top, -, -, hdeclared⟩ := hblif text r' htext
  refine ⟨hbuild, ⟨text, r', top, htext, hblackboxes, hdeclared.trans ?_⟩, design, r'', hdesign,
    (hmodules design r'' hdesign).1⟩
  exact congrArg (top ++ ·) (by decide +kernel)

end CircuitLowering
