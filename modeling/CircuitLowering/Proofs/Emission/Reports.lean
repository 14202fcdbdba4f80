import CircuitLowering.Proofs.Emission.Verdict

/-!
# What the reports say

Both writers count each node once, as emitted or as skipped, and tell the same of the inputs they tie and
of the models they declare.  They note the models of hard blocks at different times.  In BLIF a model is
noted when a hard block is written; for a design the models of all hard blocks are noted before anything
is written, those of the arithmetic path among them, whose hard blocks are never written
(`reports_of_written`).
-/

namespace CircuitLowering

open Netlist

def Netlist.kinds (nl : Netlist) : List NodeKind := nl.nodes.toList.map (·.kind)

def NodeKind.block? : NodeKind → Option String
  | hardBlock model => some model
  | _ => none

/-- The models of the hard blocks among kinds, each once, in the order in which they come first. -/
def NodeKind.blockModels (kinds : List NodeKind) : List String := (kinds.filterMap block?).eraseDups

/-- Whether a report counts the nodes of a netlist: the primitives as emitted, the others as skipped. -/
structure Report.Counts (r : Report) (nl : Netlist) : Prop where
  emitted : r.emitted = (nl.kinds.filter NodeKind.isPrimitive).length
  all : r.emitted + r.skipped = nl.nodes.size

theorem Netlist.kinds_of_graph {nl nl' : Netlist} (h : nl'.graph = nl.graph) :
    nl'.kinds = nl.kinds := by
  have hgraph (nl : Netlist) : nl.graph.kinds = nl.kinds := by
    simp only [kinds, graph, Array.toList_map, List.map_map, Function.comp_def]
  rw [← hgraph, h, hgraph]

/-! ### Models of hard blocks -/

namespace NodeKind

theorem block?_eq_some_iff {kind : NodeKind} {model : String} :
    kind.block? = some model ↔ kind = .hardBlock model := by
  cases kind <;> simp [block?]

theorem mem_blockModels {kinds : List NodeKind} {model : String} :
    model ∈ blockModels kinds ↔ .hardBlock model ∈ kinds := by
  simp only [blockModels, List.mem_eraseDups, List.mem_filterMap, block?_eq_some_iff, exists_eq_right]

/-- The models of the hard blocks that are written are those of all hard blocks just where none is left
to the arithmetic path. -/
theorem blockModels_filter_isPrimitive (kinds : List NodeKind) :
    blockModels (kinds.filter isPrimitive) = blockModels kinds ↔
      ∀ model, .hardBlock model ∈ kinds → isArithmeticModel model = false := by
  constructor
  · intro hsame model hmem
    rw [← mem_blockModels, ← hsame, mem_blockModels, List.mem_filter, isPrimitive_hardBlock] at hmem
    simpa using hmem.2
  · intro hnone
    unfold blockModels
    rw [List.filterMap_filter]
    refine congrArg List.eraseDups (List.filterMap_congr fun kind hkind => ?_)
    cases hblock : kind.block? with
    | none => simp
    | some model =>
      rw [block?_eq_some_iff] at hblock
      subst hblock
      rw [isPrimitive_hardBlock, hnone model hkind]
      rfl

end NodeKind

theorem Emit.hardBlockModels_eq (nl : Netlist) :
    hardBlockModels nl = NodeKind.blockModels nl.kinds := by
  refine (foldl_append_new [] _).trans ?_
  rw [NodeKind.blockModels, kinds, List.filterMap_map]
  refine congrArg List.eraseDups (List.filterMap_congr fun n _ => ?_)
  cases hkind : n.kind <;> simp [NodeKind.block?, hkind]

/-! ### Counting nodes -/

namespace Report

variable {r : Report} {models : List String}

theorem reference_eq (h : r.referencedModels = models.eraseDups) (model : String) :
    r.reference model = { r with referencedModels := (models ++ [model]).eraseDups } := by
  unfold reference
  simp only [h, eraseDups_concat, List.mem_eraseDups]
  split
  · rw [← h]
  · rfl

theorem foldl_reference_eq (h : r.referencedModels = models.eraseDups) (more : List String) :
    more.foldl reference r = { r with referencedModels := (models ++ more).eraseDups } := by
  induction more generalizing r models with
  | nil => rw [List.foldl_nil, List.append_nil, ← h]
  | cons model more ih =>
    rw [List.foldl_cons, reference_eq h, ih rfl, List.append_assoc, List.singleton_append]

/-- Noting a node adds the model of a hard block, if it is new. -/
theorem note_eq (h : r.referencedModels = models.eraseDups) (n : Node) :
    r.note n = { r with referencedModels := (models ++ n.kind.block?.toList).eraseDups } := by
  unfold note
  split
  · next model hkind =>
    rw [hkind]
    exact reference_eq h model
  · next hother =>
    have hnone : n.kind.block? = none :=
      Option.eq_none_iff_forall_not_mem.mpr fun model hmodel =>
        hother model (NodeKind.block?_eq_some_iff.mp hmodel)
    rw [hnone, Option.toList_none, List.append_nil, ← h]

/-- The report after nodes have been counted. -/
theorem foldl_count_eq (h : r.referencedModels = models.eraseDups) (ns : List Node) :
    ns.foldl count r = { r with
      emitted := r.emitted + ((ns.map (·.kind)).filter NodeKind.isPrimitive).length
      skipped := r.skipped + ((ns.map (·.kind)).filter fun kind => !kind.isPrimitive).length
      referencedModels := (models ++
        ((ns.map (·.kind)).filter NodeKind.isPrimitive).filterMap NodeKind.block?).eraseDups } := by
  induction ns generalizing r models with
  | nil => simp [← h]
  | cons n ns ih =>
    rw [List.foldl_cons, count, List.map_cons]
    by_cases hkind : n.kind.isPrimitive
    · rw [if_pos hkind, note_eq h, ih rfl]
      cases hblock : n.kind.block? <;> simp [hkind, hblock, Nat.add_assoc, Nat.add_comm 1]
    · have hskipped : ({ r with skipped := r.skipped + 1 } : Report).referencedModels =
          models.eraseDups := h
      rw [if_neg hkind, ih hskipped]
      simp [hkind, Nat.add_assoc, Nat.add_comm 1]

/-- A report is what its tally says, and its diagnostics. -/
theorem eq_of_tally {r' : Report} (h : r.tally = r'.tally) :
    r = { r' with diagnostics := r.diagnostics } := by
  obtain ⟨diagnostics, emitted, skipped, referencedModels, blackboxes⟩ := r
  cases h
  rfl

end Report

namespace Emit

variable (c : Context) (nl : Netlist)

def freshReport (models : List String) : Report where
  diagnostics := (nl.instantiateAll c.config.traversalMark).repairs nl.readPins
  emitted := (nl.kinds.filter NodeKind.isPrimitive).length
  skipped := (nl.kinds.filter fun kind => !kind.isPrimitive).length
  referencedModels := models
  blackboxes := blifDeclared c (nl.instantiateAll c.config.traversalMark) {}

variable {c nl}

theorem freshReport_counts (models : List String) : (freshReport c nl models).Counts nl where
  emitted := rfl
  all := by
    have hlength := List.length_eq_length_filter_add (l := nl.kinds) NodeKind.isPrimitive
    rw [kinds, List.length_map, Array.length_toList] at hlength
    exact hlength.symm

theorem report_eq_freshReport {r' : Run} {models : List String}
    (hsettles : (Run.prepare { netlist := nl } c.config.traversalMark).Settles
      (nl.instantiateAll c.config.traversalMark).readPins r')
    (htally : r'.report.tally = (freshReport c nl models).tally) :
    r'.report = freshReport c nl models := by
  have hdiagnostics := hsettles.diagnostics
  rw [readPins_of_graph (nl.graph_instantiateAll _)] at hdiagnostics
  rw [Report.eq_of_tally htally, hdiagnostics]
  rfl

/-- The report of writing a circuit in BLIF. -/
theorem report_writeBlif (hnl : nl.CrossReferenced) {text : String} {r' : Run}
    (h : writeBlif c { netlist := nl } = .ok text r') :
    r'.report = freshReport c nl (NodeKind.blockModels (nl.kinds.filter NodeKind.isPrimitive)) := by
  obtain ⟨-, hsettles, htally⟩ := (writeBlif_writes c hnl).of_ok h
  refine report_eq_freshReport hsettles (htally.trans ?_)
  have hkinds := kinds_of_graph (nl.graph_instantiateAll c.config.traversalMark)
  have hnothing : (Run.report { netlist := nl }).tally.referencedModels =
      ([] : List String).eraseDups := rfl
  rw [countedTally, Report.foldl_count_eq hnothing, ← kinds, hkinds]
  simp [Report.declare, Report.tally, freshReport, NodeKind.blockModels]

/-- The report of making a circuit a design. The models that are noted when hard blocks are written have
all been noted before. -/
theorem report_buildDesign (hnl : nl.CrossReferenced) {design : Design} {r' : Run}
    (h : buildDesign c { netlist := nl } = .ok design r') :
    r'.report = freshReport c nl (NodeKind.blockModels nl.kinds) := by
  obtain ⟨-, hsettles, htally⟩ := (buildDesign_writes c hnl).of_ok h
  refine report_eq_freshReport hsettles (htally.trans ?_)
  have hkinds := kinds_of_graph (nl.graph_instantiateAll c.config.traversalMark)
  have hnothing : (Run.report { netlist := nl }).tally.referencedModels =
      ([] : List String).eraseDups := rfl
  have hreferenced := Report.foldl_reference_eq hnothing
    (hardBlockModels (nl.instantiateAll c.config.traversalMark))
  rw [List.nil_append, hardBlockModels_eq, hkinds, NodeKind.blockModels, eraseDups_eraseDups]
    at hreferenced
  rw [designDeclared_eq, referencedTally, hardBlockModels_eq, hkinds, NodeKind.blockModels, hreferenced]
  generalize hdeclared : Report.declare _ _ = declared
  have hmodels : declared.referencedModels = (nl.kinds.filterMap NodeKind.block?).eraseDups := by
    rw [← hdeclared]
    rfl
  have hsubset : (nl.kinds.filter NodeKind.isPrimitive).filterMap NodeKind.block? ⊆
      nl.kinds.filterMap NodeKind.block? := (List.filter_sublist.filterMap _).subset
  rw [countedTally, Report.foldl_count_eq hmodels, ← kinds, hkinds,
    eraseDups_append_of_subset hsubset, ← hdeclared]
  simp [Report.declare, Report.tally, freshReport]

end Emit

/-- What the reports say of a circuit that was read from a description, each writer being run on its own
from a fresh report.  A report counts the primitives as emitted and all other nodes as skipped.  After
writing BLIF it lists the models of the hard blocks written, after making a design those of all hard
blocks, and apart from this the two reports are equal; so they are equal just where no hard block is left
to the arithmetic path. -/
theorem reports_of_written {d : CircuitDescription} {circuit : Circuit}
    (hbuild : d.build = .ok circuit) (config : Config) :
    let c := Context.new circuit.catalog config
    let r : Run := { netlist := circuit.netlist }
    (∀ text r', Emit.writeBlif c r = .ok text r' → r'.report.Counts circuit.netlist ∧
      r'.report.referencedModels =
        NodeKind.blockModels (circuit.netlist.kinds.filter NodeKind.isPrimitive)) ∧
    (∀ design r', Emit.buildDesign c r = .ok design r' → r'.report.Counts circuit.netlist ∧
      r'.report.referencedModels = NodeKind.blockModels circuit.netlist.kinds) ∧
    ∀ text r' design r'', Emit.writeBlif c r = .ok text r' → Emit.buildDesign c r = .ok design r'' →
      r''.report = { r'.report with referencedModels := r''.report.referencedModels } ∧
      (r''.report = r'.report ↔
        ∀ model, .hardBlock model ∈ circuit.netlist.kinds → isArithmeticModel model = false) := by
  intro c r
  have hnl := (CircuitDescription.sound_build hbuild).1.toCrossReferenced
  refine ⟨?_, ?_, ?_⟩
  · intro text r' h
    rw [Emit.report_writeBlif hnl h]
    exact ⟨Emit.freshReport_counts _, rfl⟩
  · intro design r' h
    rw [Emit.report_buildDesign hnl h]
    exact ⟨Emit.freshReport_counts _, rfl⟩
  · intro text r' design r'' hblif hdesign
    rw [Emit.report_writeBlif hnl hblif, Emit.report_buildDesign hnl hdesign]
    refine ⟨rfl, ?_⟩
    rw [← NodeKind.blockModels_filter_isPrimitive, eq_comm]
    exact ⟨congrArg Report.referencedModels, congrArg (Emit.freshReport c circuit.netlist)⟩

/-- Two hard blocks, the first of which is left to the arithmetic path. -/
def mixedDescription : CircuitDescription where
  nodes := [
    { name := "u"
      kind := .hardBlock adderModel
      inputs := [{ mapping := "a", nets := [none] }]
      outputs := [{ mapping := "sumout", nets := [none] }] },
    { name := "v"
      kind := .hardBlock "m"
      inputs := [{ mapping := "i", nets := [none] }]
      outputs := [{ mapping := "o", nets := [none] }] }]

def mixedCircuit : Circuit := mixedDescription.build.toOption.getD ⟨none, {}, {}⟩

theorem build_mixedDescription : mixedDescription.build = .ok mixedCircuit :=
  eq_ok_getD (by decide +kernel) _

/-- The model of the first is listed where a design is made, though one block is written, and not where
BLIF is written. -/
theorem referencedModels_mixedCircuit :
    mixedDescription.build = .ok mixedCircuit ∧
      (∃ text r', Emit.writeBlif (.new mixedCircuit.catalog {}) { netlist := mixedCircuit.netlist }
        = .ok text r' ∧ r'.report.emitted = 1 ∧ r'.report.referencedModels = ["m"]) ∧
      ∃ design r', Emit.buildDesign (.new mixedCircuit.catalog {})
        { netlist := mixedCircuit.netlist } = .ok design r' ∧ r'.report.emitted = 1 ∧
          r'.report.referencedModels = [adderModel, "m"] := by
  refine ⟨build_mixedDescription, ?_, ?_⟩
  · exact Emit.exists_of_succeeds (by decide +kernel) (by decide +kernel)
  · exact Emit.exists_of_succeeds (by decide +kernel) (by decide +kernel)

theorem reports_mixedCircuit :
    mixedDescription.build = .ok mixedCircuit ∧ ∃ text r' design r'',
      Emit.writeBlif (.new mixedCircuit.catalog {}) { netlist := mixedCircuit.netlist } = .ok text r' ∧
      Emit.buildDesign (.new mixedCircuit.catalog {}) { netlist := mixedCircuit.netlist }
        = .ok design r'' ∧
      r'.report.Counts mixedCircuit.netlist ∧ r''.report.Counts mixedCircuit.netlist ∧
      r''.report ≠ r'.report := by
  obtain ⟨hblif, hdesign, hboth⟩ := reports_of_written build_mixedDescription {}
  have hwritten : Emit.succeeds (Emit.writeBlif (.new mixedCircuit.catalog {}))
      { netlist := mixedCircuit.netlist } = true := by decide +kernel
  have hbuilt : Emit.succeeds (Emit.buildDesign (.new mixedCircuit.catalog {}))
      { netlist := mixedCircuit.netlist } = true := by decide +kernel
  obtain ⟨text, r', hw⟩ := Emit.succeeds_iff.mp hwritten
  obtain ⟨design, r'', hb⟩ := Emit.succeeds_iff.mp hbuilt
  refine ⟨build_mixedDescription, text, r', design, r'', hw, hb, (hblif text r' hw).1,
    (hdesign design r'' hb).1, ?_⟩
  have hadder : NodeKind.hardBlock adderModel ∈ mixedCircuit.netlist.kinds := by decide +kernel
  intro hsame
  have hnone := (hboth text r' design r'' hw hb).2.mp hsame adderModel hadder
  exact absurd hnone (by decide)

end CircuitLowering
