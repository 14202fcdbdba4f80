import CircuitLowering.Proofs.Emission.Nodes

/-!
# Circuits in two runs

The writers of whole circuits answer alike in two runs that stand alike, if in both no model was
referenced before that is not the model of a hard block (`Run.Tidy`).  Of what an earlier run left in
the report, only the referenced models can be seen again: they take part in choosing the blackboxes.
But where that choice is made all hard blocks have been noted, or would be reserved (`Run.Noted`), so
that both runs choose the same.
-/

namespace CircuitLowering

open Netlist

/-! ### Models that are referenced -/

/-- Whether the models that are referenced are models of hard blocks. -/
def Run.Tidy (r : Run) : Prop :=
  ∀ model ∈ r.report.referencedModels, model ∈ Emit.hardBlockModels r.netlist

/-- Whether a model that may be declared is referenced just where it is the model of a hard block. -/
def Run.Noted (r : Run) : Prop :=
  ∀ m : Model, Catalog.isReserved m = false →
    (m.name ∈ r.report.referencedModels ↔ m.name ∈ Emit.hardBlockModels r.netlist)

theorem Emit.hardBlockModels_of_nodes {nl nl' : Netlist} (h : nl'.nodes = nl.nodes) :
    hardBlockModels nl' = hardBlockModels nl := by
  rw [hardBlockModels, h, hardBlockModels]

theorem Run.Follows.tidy {r s : Run} {ids : List PinId} (h : r.Follows ids s) (hr : r.Tidy) :
    s.Tidy := by
  intro model hmodel
  rw [Emit.hardBlockModels_of_nodes h.nodes]
  rcases h.referenced model hmodel with hbefore | hblock
  · exact hr model hbefore
  · exact hblock

/-- The models of all hard blocks are noted once the nodes have been counted. -/
theorem Run.Tidy.noted_of_counted {r s : Run} (hr : r.Tidy)
    (hnodes : s.netlist.nodes = r.netlist.nodes)
    (htally : s.report.tally = Emit.countedTally r.netlist r.report.tally) : s.Noted := by
  intro m hm
  have hmodels : s.report.referencedModels = s.report.tally.referencedModels := rfl
  rw [hmodels, htally, Emit.hardBlockModels_of_nodes hnodes, Emit.countedTally,
    mem_referencedModels_foldl_count]
  constructor
  · intro h
    rcases h with hbefore | ⟨n, hn, -, hkind⟩
    · exact hr m.name hbefore
    · exact mem_hardBlockModels.mpr ⟨n, hn, hkind⟩
  · intro h
    obtain ⟨n, hn, hkind⟩ := mem_hardBlockModels.mp h
    refine Or.inr ⟨n, hn, ?_, hkind⟩
    rw [hkind]
    exact Emit.isPrimitive_hardBlock hm

theorem Run.Tidy.noted_of_referenced {r s : Run} (hr : r.Tidy) (hnetlist : s.netlist = r.netlist)
    (htally : s.report.tally = Emit.referencedTally r.netlist r.report.tally) : s.Noted := by
  intro m _
  have hmodels : s.report.referencedModels = s.report.tally.referencedModels := rfl
  rw [hmodels, htally, hnetlist, Emit.referencedTally, mem_referencedModels_foldl]
  exact ⟨fun h => h.elim (hr m.name) id, Or.inr⟩

theorem Run.Noted.isWanted_eq {r r' : Run} (hr : r.Noted) (hr' : r'.Noted)
    (hnodes : r'.netlist.nodes = r.netlist.nodes) {m : Model} (hm : Catalog.isReserved m = false) :
    Catalog.isWanted r'.report.referencedModels m = Catalog.isWanted r.report.referencedModels m := by
  have hmem : m.name ∈ r'.report.referencedModels ↔ m.name ∈ r.report.referencedModels := by
    rw [hr' m hm, Emit.hardBlockModels_of_nodes hnodes, hr m hm]
  rw [Catalog.isWanted, Bool.eq_iff_iff, Catalog.isWanted]
  simp only [Bool.or_eq_true, List.contains_iff_mem, hmem]

namespace Emit

variable {mark : UInt16} {r r' : Run}

/-! ### Nodes and outputs -/

theorem emitBlifAll_agrees (c : Context) (text : String) (ids : List NodeId) :
    Agrees c.config.traversalMark (fun _ => True) (emitBlifAll c text ids) r (emitBlifAll c text ids)
      r' Eq := by
  induction ids generalizing r r' text with
  | nil => exact agrees_pure rfl
  | cons id ids ih =>
    refine ((emitBlif_agrees c id).mono fun _ _ => trivial).bind ?_
    intro statement statement' s s' _ _ hstatement _
    subst hstatement
    exact ih _

theorem emitCells_agrees (c : Context) (d : Design) (m : Module) (ids : List NodeId) :
    Agrees c.config.traversalMark (fun _ => True) (emitCells c d m ids) r (emitCells c d m ids) r'
      Eq := by
  induction ids generalizing r r' m with
  | nil => exact agrees_pure rfl
  | cons id ids ih =>
    refine ((emitCell_agrees c d m id).mono fun _ _ => trivial).bind ?_
    intro extended extended' s s' _ _ hextended _
    subst hextended
    exact ih _

/-- An output of the circuit is read alike. -/
theorem agrees_output_bind {α : Type} {id : NodeId} {f : Node → Driver → Emit α}
    (hf : ∀ n d d' s s', d'.shown = d.shown →
      Agrees mark (fun _ => True) (f n d) s (f n d') s' Eq) :
    let x : Emit α := do
      let output ← ask (·.node id)
      let driver ← resolveOutput output
      f output driver
    Agrees mark (fun _ => True) x r x r' Eq := by
  intro x halike
  refine agrees_node_bind (fun n hn => ?_) halike
  have hresolve : Agrees mark (fun _ => True) (resolveOutput n) r (resolveOutput n) r'
      fun d d' => d'.shown = d.shown := by
    unfold resolveOutput
    cases hinputs : n.inputs with
    | nil => exact agrees_throw _
    | cons pin rest =>
      have hpin : pin ∈ n.inputs := by
        rw [hinputs]
        exact List.mem_cons_self
      obtain ⟨p, hp, -, hinput⟩ := halike.wired.pin_of_mem .input hn hpin
      exact resolve_agrees hp hinput trivial
  refine hresolve.bind ?_
  intro d d' s s' _ _ hd _
  exact hf n d d' s s' hd

theorem emitBuffers_agrees (text : String) (ids : List NodeId) :
    Agrees mark (fun _ => True) (emitBuffers text ids) r (emitBuffers text ids) r' Eq := by
  induction ids generalizing r r' text with
  | nil => exact agrees_pure rfl
  | cons id ids ih =>
    apply agrees_output_bind
    intro n d d' s s' hd
    have hname : d'.shown.name = d.shown.name := by rw [hd]
    change d'.name = d.name at hname
    rw [hname]
    exact ih _

theorem joinOutputs_agrees (m : Module) (ids : List NodeId) :
    Agrees mark (fun _ => True) (joinOutputs m ids) r (joinOutputs m ids) r' Eq := by
  induction ids generalizing r r' m with
  | nil => exact agrees_pure rfl
  | cons id ids ih =>
    apply agrees_output_bind
    intro n d d' s s' hd
    have hbit : m.driverBit d'.shown = m.driverBit d.shown := by rw [hd]
    change m.driverBit d' = m.driverBit d at hbit
    rw [hbit]
    rcases m.driverBit d with ⟨bit, m'⟩
    dsimp only
    by_cases hbit : bit = .wire n.name 0
    · rw [if_pos hbit]
      exact ih m'
    · rw [if_neg hbit]
      refine (agrees_demand _).bind ?_
      intro m'' m''' t t' _ _ hm _
      subst hm
      exact ih m''

theorem names_agrees (ids : List NodeId) :
    Agrees mark (fun _ => True) (names ids) r (names ids) r' Eq := by
  unfold names
  induction ids generalizing r r' with
  | nil => exact agrees_pure rfl
  | cons id ids ih =>
    rw [List.mapM_cons]
    have hname : Agrees mark (fun _ => True) (do return (← ask (·.node id)).name) r
        (do return (← ask (·.node id)).name) r' Eq := agrees_node_bind fun _ _ => agrees_pure rfl
    refine hname.bind ?_
    intro name name' s s' _ _ hname _
    subst hname
    refine ih.bind ?_
    intro rest rest' t t' _ _ hrest _
    subst hrest
    exact agrees_pure rfl

/-! ### Blackboxes -/

/-- Two lists of referenced models under which the same models are declared. -/
def SameWanted (referenced referenced' : List String) : Prop :=
  ∀ m, Catalog.isReserved m = false → Catalog.isWanted referenced' m = Catalog.isWanted referenced m

section Declared

variable {referenced referenced' : List String} (h : SameWanted referenced referenced')

include h

theorem SameWanted.declared (m : Model) :
    (Catalog.isWanted referenced' m && !Catalog.isReserved m)
      = (Catalog.isWanted referenced m && !Catalog.isReserved m) := by
  cases hm : Catalog.isReserved m with
  | true => simp
  | false => rw [h m hm]

theorem declareBlif_agrees (ds : Declarations) (models : List Model) :
    Agrees mark (fun _ => True) (declareBlif referenced ds models) r
      (declareBlif referenced' ds models) r' Eq := by
  induction models generalizing r r' ds with
  | nil => exact agrees_pure rfl
  | cons m models ih =>
    refine agrees_tellAll_bind ?_
    rw [h.declared m]
    split
    · split
      · exact agrees_pure rfl
      · refine (agrees_demand _).bind ?_
        intro text text' s s' _ _ htext _
        subst htext
        exact agrees_modifyReport_bind (fun _ => rfl) (fun _ => rfl) (ih _)
    · exact ih ds

theorem declareModules_agrees (d : Design) (models : List Model) :
    Agrees mark (fun _ => True) (declareModules referenced d models) r
      (declareModules referenced' d models) r' Eq := by
  induction models generalizing r r' d with
  | nil => exact agrees_pure rfl
  | cons m models ih =>
    refine agrees_tellAll_bind ?_
    rw [h.declared m]
    split
    · split
      · exact agrees_pure rfl
      · refine agrees_tellAll_bind ((agrees_demand _).bind ?_)
        intro module module' s s' _ _ hmodule _
        subst hmodule
        exact agrees_modifyReport_bind (fun _ => rfl) (fun _ => rfl) (ih _)
    · exact ih d

end Declared

theorem emitBlackboxes_agrees (c : Context) (declared : List String)
    (h : SameWanted r.report.referencedModels r'.report.referencedModels) :
    Agrees mark (fun _ => True) (emitBlackboxes c declared) r (emitBlackboxes c declared) r' Eq :=
  agrees_ok_bind rfl rfl (declareBlif_agrees h _ _)

theorem addBlackboxes_agrees (c : Context) (d : Design)
    (h : SameWanted r.report.referencedModels r'.report.referencedModels) :
    Agrees mark (fun _ => True) (addBlackboxes c d) r (addBlackboxes c d) r' Eq :=
  agrees_ok_bind rfl rfl (declareModules_agrees h _ _)

theorem insertModule_agrees (d : Design) (name : String) (m : Module) :
    Agrees mark (fun _ => True) (insertModule d name m) r (insertModule d name m) r' Eq := by
  unfold insertModule
  cases d.addModule name m with
  | ok d => exact agrees_pure rfl
  | error e => exact agrees_fail e

/-! ### Writers -/

/-- To name the outputs of a prepared netlist changes nothing. -/
theorem instantiateAll_eq_ok (h : r.netlist.Prepared mark) :
    modifyNetlist (·.instantiateAll mark) r = .ok () r := by
  have heq : r.netlist.instantiateAll mark = r.netlist := h.instantiated.instantiateAll_eq
  change EStateM.Result.ok () { r with netlist := r.netlist.instantiateAll mark } = _
  rw [heq]

theorem sameWanted_of_noted (hr : r.Noted) (hr' : r'.Noted)
    (hnodes : r'.netlist.nodes = r.netlist.nodes) :
    SameWanted r.report.referencedModels r'.report.referencedModels :=
  fun _ hm => hr.isWanted_eq hr' hnodes hm

/-- The hard blocks have been noted when it comes to the blackboxes of a text. -/
theorem noted_of_body (c : Context) (hr : r.Tidy)
    (hprepared : r.netlist.Prepared c.config.traversalMark) {ins outs : List NodeId}
    {body buffers : String} {inputs outputs : List String} {s₁ s₂ s₃ s₄ : Run}
    (h₁ : emitBlifAll c "" (List.range r.netlist.nodes.size) r = .ok body s₁)
    (h₂ : emitBuffers "" outs s₁ = .ok buffers s₂) (h₃ : names ins s₂ = .ok inputs s₃)
    (h₄ : names outs s₃ = .ok outputs s₄) : s₄.Noted := by
  obtain ⟨-, hs₁, htally₁⟩ := (emitBlifAll_writes c "" hprepared (map_range_nodes _)).of_ok h₁
  obtain ⟨-, hs₂, htally₂⟩ := (emitBuffers_reads "" outs).of_ok h₂
  obtain ⟨-, -, rfl⟩ := (names_reads ins).of_ok h₃
  obtain ⟨-, -, rfl⟩ := (names_reads outs).of_ok h₄
  refine hr.noted_of_counted ?_ (htally₂.trans htally₁)
  rw [hs₂.nodes, hs₁.nodes]

theorem writeBlif_agrees (c : Context) (hr : r.Tidy) (hr' : r'.Tidy) :
    Agrees c.config.traversalMark (fun _ => True) (writeBlif c) r (writeBlif c) r' Eq := by
  intro halike
  have hnodes := nodes_of_settled halike.settled
  refine agrees_ok_bind (instantiateAll_eq_ok halike.prepared)
    (instantiateAll_eq_ok halike.prepared') ?_ halike
  refine agrees_ok_bind rfl rfl ?_
  rw [hnodes, topInputs_of_settled halike.settled, topOutputs_of_settled halike.settled]
  apply agrees_tell_bind_any
  intro s s' hs hreport hs' hreport'
  have htidy : s.Tidy := by rwa [Run.Tidy, hs, hreport]
  have htidy' : s'.Tidy := by rwa [Run.Tidy, hs', hreport']
  have hprepared := halike.prepared
  have hprepared' := halike.prepared'
  rw [← hs] at hprepared hnodes ⊢
  rw [← hs'] at hprepared' hnodes
  refine (emitBlifAll_agrees c "" _).bind ?_
  intro body _ s₁ s₁' h₁ h₁' hbody hs₁
  subst hbody
  refine (emitBuffers_agrees "" _).bind ?_
  intro buffers _ s₂ s₂' h₂ h₂' hbuffers hs₂
  subst hbuffers
  refine (names_agrees _).bind ?_
  intro inputs _ s₃ s₃' h₃ h₃' hinputs hs₃
  subst hinputs
  refine (names_agrees _).bind ?_
  intro outputs _ s₄ s₄' h₄ h₄' houtputs hs₄
  subst houtputs
  have hnoted : s₄.Noted := noted_of_body c htidy hprepared h₁ h₂ h₃ h₄
  have hnoted' : s₄'.Noted := noted_of_body c htidy' hprepared' (hnodes ▸ h₁') h₂' h₃' h₄'
  have hnodes₄ : s₄'.netlist.nodes = s₄.netlist.nodes := by
    rw [hs₄.nodes', hs₃.nodes', hs₂.nodes', hs₁.nodes', hs₄.nodes, hs₃.nodes, hs₂.nodes, hs₁.nodes]
    exact hnodes
  refine (emitBlackboxes_agrees c _ (sameWanted_of_noted hnoted hnoted' hnodes₄)).bind ?_
  intro ds _ s₅ s₅' _ _ hds _
  subst hds
  cases ds.clash with
  | some name => exact (agrees_fail _).stop_bind
  | none => exact agrees_pure rfl

/-- A design notes the models of all hard blocks before it comes to the blackboxes. -/
theorem follows_referenceAll (r : Run) :
    r.Follows [] { r with report := (hardBlockModels r.netlist).foldl Report.reference r.report } := by
  refine ⟨Run.settles_nil rfl (Report.diagnostics_foldl_reference _ _), ?_⟩
  intro model hmodel
  exact mem_referencedModels_foldl.mp hmodel

theorem buildDesign_agrees (c : Context) (hr : r.Tidy) (hr' : r'.Tidy) :
    Agrees c.config.traversalMark (fun _ => True) (buildDesign c) r (buildDesign c) r' Eq := by
  intro halike
  have hnodes := nodes_of_settled halike.settled
  refine agrees_ok_bind (instantiateAll_eq_ok halike.prepared)
    (instantiateAll_eq_ok halike.prepared') ?_ halike
  refine agrees_ok_bind rfl rfl ?_
  have hmodels := hardBlockModels_of_nodes hnodes
  rw [hnodes, topInputs_of_settled halike.settled, topOutputs_of_settled halike.settled]
  apply agrees_tell_bind_any
  intro s s' hs hreport hs' hreport'
  have htidy : s.Tidy := by rwa [Run.Tidy, hs, hreport]
  have htidy' : s'.Tidy := by rwa [Run.Tidy, hs', hreport']
  rw [← hs, ← hs'] at hnodes ⊢
  refine agrees_modify_bind (follows_referenceAll s) (follows_referenceAll s') ?_
  have hnoted := htidy.noted_of_referenced
    (s := { s with report := (hardBlockModels s.netlist).foldl Report.reference s.report }) rfl
    (Report.tally_foldl_reference _ _)
  have hnoted' := htidy'.noted_of_referenced
    (s := { s' with report := (hardBlockModels s'.netlist).foldl Report.reference s'.report }) rfl
    (Report.tally_foldl_reference _ _)
  refine (addBlackboxes_agrees c {} (sameWanted_of_noted hnoted hnoted' hnodes)).bind ?_
  rintro ⟨d, clash⟩ _ s₁ s₁' _ _ rfl _
  cases clash with
  | some name => exact (agrees_fail _).stop_bind
  | none =>
    refine (names_agrees _).bind ?_
    intro inputs _ s₂ s₂' _ _ hinputs _
    subst hinputs
    refine (names_agrees _).bind ?_
    intro outputs _ s₃ s₃' _ _ houtputs _
    subst houtputs
    refine (emitCells_agrees c d _ _).bind ?_
    intro m _ s₄ s₄' _ _ hm _
    subst hm
    refine (joinOutputs_agrees m _).bind ?_
    intro m _ s₅ s₅' _ _ hm _
    subst hm
    refine (insertModule_agrees d _ _).bind ?_
    intro d _ s₆ s₆' _ _ hd _
    subst hd
    exact agrees_pure rfl

theorem writeRtlil_agrees (c : Context) (hr : r.Tidy) (hr' : r'.Tidy) :
    Agrees c.config.traversalMark (fun _ => True) (writeRtlil c) r (writeRtlil c) r' Eq := by
  refine (buildDesign_agrees c hr hr').bind ?_
  intro d _ s s' _ _ hd _
  subst hd
  exact agrees_demand _

theorem writeJson_agrees (c : Context) (hr : r.Tidy) (hr' : r'.Tidy) :
    Agrees c.config.traversalMark (fun _ => True) (writeJson c) r (writeJson c) r' Eq := by
  refine (buildDesign_agrees c hr hr').bind ?_
  intro d _ s s' _ _ hd _
  subst hd
  exact agrees_demand _

end Emit

end CircuitLowering
