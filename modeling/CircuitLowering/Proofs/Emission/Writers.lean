import CircuitLowering.Proofs.Emission.Blackboxes
import CircuitLowering.Proofs.Emission.ReadPins

/-!
# Writing circuits

A writer names the outputs, writes the nodes in their order, reads the outputs of the circuit and
declares the blackboxes, the last at one or the other end.  `Emit.WritesCircuit` says of an action that
it is such a writer, with the error at which it stops; `Emit.writeBlif_writes` and
`Emit.buildDesign_writes` say so of the two there are.
-/

namespace CircuitLowering

def Run.prepare (r : Run) (mark : UInt16) : Run :=
  { r with netlist := r.netlist.instantiateAll mark }

namespace Emit

open Netlist

variable {r : Run}

/-! ### Nodes -/

def WritesNodes {α : Type} (x : Emit α) (r : Run) (ns : List Node) : Prop :=
  Reads x r (ns.findSome? r.netlist.nodeError?) (ns.flatMap Node.pinsRead) fun _ r' =>
    r'.report.tally = ns.foldl Report.count r.report.tally

theorem writesNodes_pure {α : Type} (a : α) : WritesNodes (pure a) r [] := reads_pure rfl

theorem WritesNode.bind {α β : Type} {x : Emit α} {f : α → Emit β} {n : Node} {ns : List Node}
    (hx : WritesNode x r n) (hf : ∀ a r', r.Settles n.pinsRead r' → WritesNodes (f a) r' ns) :
    WritesNodes (x >>= f) r (n :: ns) := by
  unfold WritesNodes
  rw [findSome?_cons_or, List.flatMap_cons]
  apply Reads.bind hx
  intro a r' hr' htally
  have hrest := hf a r' hr'
  have herror : r'.netlist.nodeError? = r.netlist.nodeError? := by
    funext n'
    rw [hr'.netlist, nodeError?_tieAll]
  unfold WritesNodes at hrest
  rw [herror, htally] at hrest
  exact hrest

theorem emitBlifAll_writes (c : Context) (text : String) {ids : List NodeId} {ns : List Node}
    (hnl : r.netlist.Prepared c.config.traversalMark)
    (hids : ids.map (r.netlist.nodes[·]?) = ns.map some) :
    WritesNodes (emitBlifAll c text ids) r ns := by
  induction ids generalizing r text ns with
  | nil =>
    rw [List.map_nil, eq_comm, List.map_eq_nil_iff] at hids
    subst hids
    exact writesNodes_pure text
  | cons id ids ih =>
    cases ns with
    | nil => exact nomatch hids
    | cons n ns =>
      obtain ⟨hn, hns⟩ := List.cons.inj hids
      apply (emitBlif_writes c hnl hn).bind
      intro statement r₁ hr₁
      refine ih _ ?_ ?_
      · rw [hr₁.netlist]
        exact hnl.tieAll n.pinsRead
      · exact hr₁.nodes ▸ hns

theorem emitCells_writes (c : Context) (d : Design) (m : Module) {ids : List NodeId}
    {ns : List Node} (hnl : r.netlist.Prepared c.config.traversalMark)
    (hids : ids.map (r.netlist.nodes[·]?) = ns.map some) :
    WritesNodes (emitCells c d m ids) r ns := by
  induction ids generalizing r m ns with
  | nil =>
    rw [List.map_nil, eq_comm, List.map_eq_nil_iff] at hids
    subst hids
    exact writesNodes_pure m
  | cons id ids ih =>
    cases ns with
    | nil => exact nomatch hids
    | cons n ns =>
      obtain ⟨hn, hns⟩ := List.cons.inj hids
      apply (emitCell_writes c d m hnl hn).bind
      intro extended r₁ hr₁
      refine ih _ ?_ ?_
      · rw [hr₁.netlist]
        exact hnl.tieAll n.pinsRead
      · exact hr₁.nodes ▸ hns

/-! ### Outputs of the circuit -/

def ReadsOutputs {α : Type} (x : Emit α) (r : Run) (ids : List NodeId) : Prop :=
  Reads x r (r.netlist.firstReadError? (r.netlist.outputPins ids)) (r.netlist.outputPins ids)
    fun _ r' => r'.report.tally = r.report.tally

theorem readsOutputs_pure {α : Type} (a : α) : ReadsOutputs (pure a) r [] := reads_pure rfl

/-- An output that has no node or no pin is a broken promise. -/
theorem readsOutputs_cons {α : Type} {id : NodeId} {ids : List NodeId}
    {f : Node → Driver → Emit α} (hf : ∀ n d r', r.Settles (r.netlist.outputPins [id]) r' →
      ReadsOutputs (f n d) r' ids) :
    ReadsOutputs (do
      let output ← ask (·.node id)
      let driver ← resolveOutput output
      f output driver) r (id :: ids) := by
  apply reads_ask_bind
  intro n hn
  rw [node_eq_ok_iff] at hn
  cases hinputs : n.inputs with
  | nil =>
    rw [resolveOutput, hinputs]
    exact Ends.bind ends_fault
  | cons pin rest =>
    have hpins (ids : List NodeId) :
        r.netlist.outputPins (id :: ids) = pin :: r.netlist.outputPins ids := by
      rw [outputPins_cons, hn, Option.bind_some, hinputs]
      rfl
    rw [resolveOutput, hinputs, hpins, firstReadError?_cons]
    apply (resolve_reads pin).bind
    intro d r' hr' htally
    have hrest := hf n d r' (by rw [hpins]; exact hr')
    unfold ReadsOutputs at hrest
    rw [hr'.netlist, outputPins_tieAll, firstReadError?_tieAll, htally] at hrest
    exact hrest

theorem emitBuffers_reads (text : String) (ids : List NodeId) :
    ReadsOutputs (emitBuffers text ids) r ids := by
  induction ids generalizing r text with
  | nil => exact readsOutputs_pure text
  | cons id ids ih => exact readsOutputs_cons fun n d r' _ => ih _

theorem joinOutputs_reads (m : Module) (ids : List NodeId) :
    ReadsOutputs (joinOutputs m ids) r ids := by
  induction ids generalizing r m with
  | nil => exact readsOutputs_pure m
  | cons id ids ih =>
    apply readsOutputs_cons
    intro n d r' _
    rcases m.driverBit d with ⟨bit, m'⟩
    dsimp only
    by_cases hbit : bit = .wire n.name 0
    · rw [if_pos hbit]
      exact ih m'
    · rw [if_neg hbit]
      exact reads_demand_bind fun m'' _ => ih m''

theorem names_reads (ids : List NodeId) : Reads (names ids) r none [] fun _ r' => r' = r := by
  unfold names
  induction ids with
  | nil => exact reads_pure rfl
  | cons id ids ih =>
    rw [List.mapM_cons]
    have hname : Reads (do return (← ask (·.node id)).name) r none [] fun _ r' => r' = r :=
      reads_ask_bind fun _ _ => reads_pure rfl
    refine hname.silent_bind ?_
    intro name _ _ hend
    subst hend
    exact ih.silent_bind fun _ _ _ hr => reads_pure hr

/-! ### Circuits

What a whole circuit leads to is said of the netlist `nl` whose outputs have been named, and of the
rest of the report that the run starts with. -/

section Circuits

def countedTally (nl : Netlist) (tally : Report) : Report := nl.nodes.toList.foldl Report.count tally

/-- The models that are declared in BLIF: the used ones and those of the hard blocks written. -/
def blifDeclared (c : Context) (nl : Netlist) (tally : Report) : List String :=
  Catalog.declaredNames (countedTally nl tally).referencedModels c.catalog.models

def blifError? (c : Context) (nl : Netlist) (tally : Report) : Option EmitError :=
  nl.circuitError?.or
    ((firstTaken [c.config.topModule] (blifDeclared c nl tally)).map .duplicateModule)

/-- The models of all hard blocks, referenced before anything is written. -/
def referencedTally (nl : Netlist) (tally : Report) : Report :=
  (hardBlockModels nl).foldl Report.reference tally

/-- The models that are declared in a design: the used ones and those of all hard blocks. -/
def designDeclared (c : Context) (nl : Netlist) (tally : Report) : List String :=
  Catalog.declaredNames (referencedTally nl tally).referencedModels c.catalog.models

def designError? (c : Context) (nl : Netlist) (tally : Report) : Option EmitError :=
  ((firstTaken [] (designDeclared c nl tally)).map .duplicateModule).or
    (nl.circuitError?.or
      (if c.config.topModule ∈ designDeclared c nl tally then
        some (.duplicateModule c.config.topModule)
      else none))

/-- Whether the action writes the circuit: it names the outputs, reads what there is to read, stops at
the given error, and leaves `tally` as the rest of the report. -/
def WritesCircuit {α : Type} (x : Emit α) (r : Run) (mark : UInt16) (error? : Option EmitError)
    (tally : Report) : Prop :=
  Ends x r
    (fun _ r' => error? = none ∧ (r.prepare mark).Settles (r.prepare mark).netlist.readPins r' ∧
      r'.report.tally = tally)
    fun e r' => error? = some e ∧
      ∃ first, first <+: (r.prepare mark).netlist.readPins ∧ (r.prepare mark).Settles first r'

theorem writesCircuit_of_reads {α : Type} {x : Emit α} {mark : UInt16} {error? : Option EmitError}
    {tally : Report}
    (h : ∀ r₀ : Run, r₀.netlist = r.netlist.instantiateAll mark → r₀.report = r.report →
      Reads x r₀ error? r₀.netlist.readPins fun _ r' => r'.report.tally = tally) :
    WritesCircuit (do modifyNetlist (·.instantiateAll mark); x) r mark error? tally :=
  Ends.bind (ends_modifyNetlist (h (r.prepare mark) rfl rfl))

variable (c : Context)

theorem emitBlackboxes_reads (declared : List String) :
    Reads (emitBlackboxes c declared) r none [] fun ds r' =>
      ds.clash = firstTaken declared
          (Catalog.declaredNames r.report.tally.referencedModels c.catalog.models) ∧
        (ds.clash = none → r'.report.tally = r.report.tally.declare
          (Catalog.declaredNames r.report.tally.referencedModels c.catalog.models)) :=
  reads_get_bind (declareBlif_reads r.report.referencedModels c.catalog.models rfl)

theorem writeBlif_writes (hnl : r.netlist.CrossReferenced) :
    WritesCircuit (writeBlif c) r c.config.traversalMark
      (blifError? c (r.netlist.instantiateAll c.config.traversalMark) r.report.tally)
      ((countedTally (r.netlist.instantiateAll c.config.traversalMark) r.report.tally).declare
        (blifDeclared c (r.netlist.instantiateAll c.config.traversalMark) r.report.tally)) := by
  refine writesCircuit_of_reads fun r₁ hnetlist₁ hreport₁ => reads_get_bind ?_
  apply reads_tell_bind_any
  intro r₀ hnetlist₀ hreport₀
  have hprepared := hnl.prepared c.config.traversalMark
  rw [← hnetlist₁, ← hnetlist₀] at hprepared ⊢
  rw [← hreport₁, ← hreport₀]
  clear hnetlist₁ hreport₁ hnetlist₀ hreport₀ r₁
  unfold blifError? circuitError?
  rw [Option.or_assoc]
  refine Reads.bind (emitBlifAll_writes c "" hprepared (map_range_nodes r₀.netlist)) ?_
  intro body r₁ hr₁ htally₁
  have houtputs := emitBuffers_reads (r := r₁) "" r₀.netlist.topOutputs
  unfold ReadsOutputs at houtputs
  rw [hr₁.netlist, outputPins_tieAll, firstReadError?_tieAll] at houtputs
  apply houtputs.bind_check
  intro buffers r₂ _ htally₂
  refine (names_reads _).silent_bind ?_
  intro inputs _ _ hend
  subst hend
  refine (names_reads _).silent_bind ?_
  intro outputs r₂ _ hend
  subst hend
  have htally : r₂.report.tally = countedTally r₀.netlist r₀.report.tally := htally₂.trans htally₁
  refine (emitBlackboxes_reads c [c.config.topModule]).silent_bind ?_
  intro ds r₃ _ hend
  rcases hend with ⟨hclash, htally₃⟩
  rw [htally] at hclash htally₃
  change ds.clash = firstTaken _ (blifDeclared c r₀.netlist r₀.report.tally) at hclash
  rw [← hclash]
  cases hds : ds.clash with
  | some name => exact reads_fail (.duplicateModule name)
  | none => exact reads_pure (htally₃ hds)

theorem addBlackboxes_reads :
    Reads (addBlackboxes c {}) r none [] fun answer r' =>
      answer.2 = firstTaken []
          (Catalog.declaredNames r.report.tally.referencedModels c.catalog.models) ∧
        (answer.2 = none →
          answer.1.modules.names =
            Catalog.declaredNames r.report.tally.referencedModels c.catalog.models ∧
          r'.report.tally = r.report.tally.declare
            (Catalog.declaredNames r.report.tally.referencedModels c.catalog.models)) :=
  reads_get_bind (declareModules_reads r.report.referencedModels c.catalog.models {})

theorem insertModule_reads (d : Design) (name : String) (m : Module) :
    Reads (insertModule d name m) r
      (if name ∈ d.modules.names then some (.duplicateModule name) else none) []
      fun _ r' => r' = r := by
  unfold insertModule Design.addModule
  by_cases htaken : name ∈ d.modules.names
  · rw [if_pos ((d.modules.contains_iff name).mpr htaken), if_pos htaken]
    exact reads_fail (.duplicateModule name)
  · rw [if_neg (mt (d.modules.contains_iff name).mp htaken), if_neg htaken]
    exact reads_pure rfl

theorem referenceAll_reads (models : List String) :
    Reads (modifyReport fun report => models.foldl (fun report model => report.reference model) report)
      r none [] fun _ r' => r'.netlist = r.netlist ∧
        r'.report.tally = models.foldl Report.reference r.report.tally :=
  reads_of_ends (ends_modifyReport ⟨rfl, Report.diagnostics_foldl_reference _ _, rfl,
    Report.tally_foldl_reference _ _⟩)

theorem buildDesign_writes (hnl : r.netlist.CrossReferenced) :
    WritesCircuit (buildDesign c) r c.config.traversalMark
      (designError? c (r.netlist.instantiateAll c.config.traversalMark) r.report.tally)
      (countedTally (r.netlist.instantiateAll c.config.traversalMark)
        ((referencedTally (r.netlist.instantiateAll c.config.traversalMark) r.report.tally).declare
          (designDeclared c (r.netlist.instantiateAll c.config.traversalMark)
            r.report.tally))) := by
  refine writesCircuit_of_reads fun r₁ hnetlist₁ hreport₁ => reads_get_bind ?_
  apply reads_tell_bind_any
  intro r₀ hnetlist₀ hreport₀
  have hprepared := hnl.prepared c.config.traversalMark
  rw [← hnetlist₁, ← hnetlist₀] at hprepared ⊢
  rw [← hreport₁, ← hreport₀]
  clear hnetlist₁ hreport₁ hnetlist₀ hreport₀ r₁
  refine (referenceAll_reads (hardBlockModels r₀.netlist)).silent_bind ?_
  intro _ r₁ _ hend
  rcases hend with ⟨hnetlist₁, htally₁⟩
  change r₁.report.tally = referencedTally r₀.netlist r₀.report.tally at htally₁
  refine (addBlackboxes_reads c).silent_bind ?_
  rintro ⟨d, clash⟩ r₂ hr₂ ⟨hclash, hdone⟩
  rw [htally₁] at hclash hdone
  change clash = firstTaken [] (designDeclared c r₀.netlist r₀.report.tally) at hclash
  unfold designError?
  rw [← hclash]
  cases clash with
  | some name => exact Ends.bind (ends_fail ⟨rfl, [], List.nil_prefix, Run.settles_nil rfl rfl⟩)
  | none =>
    obtain ⟨hmodules, htally₂⟩ := hdone rfl
    change d.modules.names = designDeclared c r₀.netlist r₀.report.tally at hmodules
    have hnetlist₂ : r₂.netlist = r₀.netlist := hr₂.netlist.trans hnetlist₁
    refine (names_reads _).silent_bind ?_
    intro inputs _ _ hend
    subst hend
    refine (names_reads _).silent_bind ?_
    intro outputs r₂ _ hend
    subst hend
    rw [Option.map_none, Option.none_or, circuitError?, Option.or_assoc, ← hmodules]
    rw [← hnetlist₂] at hprepared htally₂ hmodules ⊢
    refine (emitCells_writes c d _ hprepared (map_range_nodes r₂.netlist)).bind ?_
    intro m r₃ hr₃ htally₃
    have houtputs := joinOutputs_reads (r := r₃) m r₂.netlist.topOutputs
    unfold ReadsOutputs at houtputs
    rw [hr₃.netlist, outputPins_tieAll, firstReadError?_tieAll] at houtputs
    apply houtputs.bind_check
    intro m r₄ _ htally₄
    refine (insertModule_reads d c.config.topModule m.numberPorts).bind_silent ?_
    intro d' _ _ hend
    subst hend
    refine reads_pure ?_
    rw [htally₄, htally₃, htally₂, hmodules]
    rfl

end Circuits

end Emit

end CircuitLowering
