import CircuitLowering.Proofs.Circuit.Acceptance
import CircuitLowering.Proofs.Emission.Aftermath

/-!
# What the writers make of a circuit

The two writers go through a circuit in different orders: one declares the blackboxes last, the other
first, and only the latter references the models of hard blocks that it does not write.  Of a circuit
that was read from a description they still make the same: both write it, or both stop at the same
error.  `Circuit.Writable` says which circuits are written.
-/

namespace CircuitLowering

open Netlist

structure Circuit.Writable (circuit : Circuit) (config : Config) : Prop where
  /-- The pins of every primitive fit its kind. -/
  shaped : ∀ n ∈ circuit.netlist.nodes.toList, n.kind.isPrimitive → n.shapeError? = none
  /-- No net that is read has several drivers. -/
  driven : ∀ id ∈ circuit.netlist.readPins, ∀ w, circuit.netlist.netOf? id = some w →
    (circuit.netlist.drivers w).length < 2
  /-- No model that is declared has the name of the top module. -/
  free : ∀ m ∈ circuit.catalog.models, Catalog.isReserved m = false →
    (m.used ∨ ∃ n ∈ circuit.netlist.nodes.toList, n.kind.isPrimitive ∧ n.kind = .hardBlock m.name) →
    m.name ≠ config.topModule

/-! ### Models that are referenced -/

/-- The hard blocks that are not written are those of the arithmetic path. -/
theorem NodeKind.isPrimitive_hardBlock (model : String) :
    (hardBlock model).isPrimitive = !isArithmeticModel model := by
  simp [isPrimitive, isConstant, constant?, isBoundary, isArithmetic]

section Referenced

variable {model : String}

theorem mem_referencedModels_reference {r : Report} {other : String} :
    model ∈ (r.reference other).referencedModels ↔ model ∈ r.referencedModels ∨ model = other := by
  unfold Report.reference
  split
  · next h =>
    refine ⟨Or.inl, fun hmem => hmem.elim id ?_⟩
    intro h
    subst h
    exact h
  · simp

theorem mem_referencedModels_foldl {r : Report} {models : List String} :
    model ∈ (models.foldl Report.reference r).referencedModels ↔
      model ∈ r.referencedModels ∨ model ∈ models := by
  induction models generalizing r with
  | nil => simp
  | cons other models ih =>
    rw [List.foldl_cons, ih, mem_referencedModels_reference, List.mem_cons, or_assoc]

theorem mem_referencedModels_note {r : Report} {n : Node} :
    model ∈ (r.note n).referencedModels ↔
      model ∈ r.referencedModels ∨ n.kind = .hardBlock model := by
  unfold Report.note
  split
  · next other hkind =>
    rw [mem_referencedModels_reference, hkind, NodeKind.hardBlock.injEq, eq_comm (a := model)]
  · next hother =>
    refine ⟨Or.inl, fun h => h.elim id fun hkind => absurd hkind (hother model)⟩

theorem mem_referencedModels_count {r : Report} {n : Node} :
    model ∈ (r.count n).referencedModels ↔
      model ∈ r.referencedModels ∨ (n.kind.isPrimitive ∧ n.kind = .hardBlock model) := by
  unfold Report.count
  split
  · next hkind =>
    simp only [hkind, true_and]
    exact mem_referencedModels_note
  · next hkind => simp [hkind]

/-- The models referenced by counting nodes are those of the hard blocks that are written. -/
theorem mem_referencedModels_foldl_count {r : Report} {ns : List Node} :
    model ∈ (ns.foldl Report.count r).referencedModels ↔
      model ∈ r.referencedModels ∨ ∃ n ∈ ns, n.kind.isPrimitive ∧ n.kind = .hardBlock model := by
  induction ns generalizing r with
  | nil => simp
  | cons n ns ih =>
    rw [List.foldl_cons, ih, mem_referencedModels_count, or_assoc]
    simp only [List.mem_cons, exists_eq_or_imp]

theorem mem_hardBlockModels {nl : Netlist} :
    model ∈ Emit.hardBlockModels nl ↔ ∃ n ∈ nl.nodes.toList, n.kind = .hardBlock model := by
  have hmodels : Emit.hardBlockModels nl = List.eraseDups _ := foldl_append_new [] _
  rw [hmodels, List.nil_append, List.mem_eraseDups, List.mem_filterMap]
  refine exists_congr fun n => and_congr_right fun _ => ?_
  cases n.kind <;> simp

end Referenced

/-! ### Models that are declared -/

namespace Catalog

theorem mem_declaredNames {referenced : List String} {models : List Model} {name : String} :
    name ∈ declaredNames referenced models ↔
      ∃ m ∈ models, isReserved m = false ∧ (m.used ∨ m.name ∈ referenced) ∧ m.name = name := by
  simp only [declaredNames, List.mem_map, List.mem_filter, isWanted, Bool.and_eq_true,
    Bool.or_eq_true, List.contains_iff_mem, Bool.not_eq_true', and_assoc]
  refine exists_congr fun m => and_congr_right fun _ => ?_
  rw [and_left_comm]

theorem nodup_declaredNames {models : List Model} (h : (models.map (·.name)).Nodup)
    (referenced : List String) : (declaredNames referenced models).Nodup :=
  h.sublist (List.filter_sublist.map _)

/-- Setting the sizes of the memories changes neither the name of a model nor whether it is used. -/
theorem map_applyMemorySizes {α : Type} (c : Catalog) (config : Config) (f : Model → α)
    (hf : ∀ m inputs outputs, f { m with inputs, outputs } = f m) :
    (c.applyMemorySizes config).models.map f = c.models.map f := by
  unfold applyMemorySizes
  generalize memorySizes config = sizes
  induction sizes generalizing c with
  | nil => rfl
  | cons size sizes ih =>
    obtain ⟨model, port, bits⟩ := size
    refine (ih _).trans ?_
    change (c.update model (·.resize port bits)).models.map f = _
    rw [update, List.map_map]
    apply List.map_congr_left
    intro m _
    rw [Function.comp_apply]
    split
    · unfold Model.resize
      split
      · exact hf m _ _
      · exact hf m _ _
    · rfl

theorem exists_applyMemorySizes (c : Catalog) (config : Config) {P : Model → Prop}
    (hP : ∀ m inputs outputs, P { m with inputs, outputs } ↔ P m) :
    (∃ m ∈ (c.applyMemorySizes config).models, P m) ↔ ∃ m ∈ c.models, P m := by
  have hmap := c.map_applyMemorySizes config P fun m inputs outputs => propext (hP m inputs outputs)
  have hexists (ms : List Model) : (∃ m ∈ ms, P m) ↔ True ∈ ms.map P := by simp
  rw [hexists, hmap, hexists]

end Catalog

namespace Emit

section Declared

variable {c : Context} {nl : Netlist} {tally : Report}

/-- The hard blocks of models that are not reserved are written. -/
theorem isPrimitive_hardBlock {m : Model} (hm : Catalog.isReserved m = false) :
    (NodeKind.hardBlock m.name).isPrimitive := by
  rw [NodeKind.isPrimitive_hardBlock, Bool.not_eq_true']
  exact hm

theorem mem_blifDeclared {name : String} :
    name ∈ blifDeclared c nl tally ↔
      ∃ m ∈ c.catalog.models, Catalog.isReserved m = false ∧
        (m.used ∨ m.name ∈ tally.referencedModels ∨
          ∃ n ∈ nl.nodes.toList, n.kind.isPrimitive ∧ n.kind = .hardBlock m.name) ∧
        m.name = name := by
  simp only [blifDeclared, countedTally, Catalog.mem_declaredNames, mem_referencedModels_foldl_count]

variable (c nl tally) in
/-- Both writers declare the same models, in the same order. -/
theorem designDeclared_eq : designDeclared c nl tally = blifDeclared c nl tally := by
  refine congrArg (List.map _) (List.filter_congr fun m _ => ?_)
  cases hm : Catalog.isReserved m with
  | true => simp
  | false =>
    have hmem : m.name ∈ (referencedTally nl tally).referencedModels ↔
        m.name ∈ (countedTally nl tally).referencedModels := by
      rw [referencedTally, countedTally, mem_referencedModels_foldl, mem_referencedModels_foldl_count,
        mem_hardBlockModels]
      refine or_congr_right (exists_congr fun n => and_congr_right fun _ => ?_)
      refine ⟨fun hkind => ⟨?_, hkind⟩, fun h => h.2⟩
      rw [hkind]
      exact isPrimitive_hardBlock hm
    simp only [Catalog.isWanted, List.contains_eq_mem, hmem]

/-- Where models have distinct names, the only name that can be taken is that of the top module. -/
theorem blifError?_eq (h : (c.catalog.models.map (·.name)).Nodup) :
    blifError? c nl tally = nl.circuitError?.or
      (if c.config.topModule ∈ blifDeclared c nl tally then
        some (.duplicateModule c.config.topModule)
      else none) := by
  have hnodup : (blifDeclared c nl tally).Nodup := Catalog.nodup_declaredNames h _
  rw [blifError?, firstTaken_singleton hnodup]
  split <;> rfl

theorem designError?_eq (h : (c.catalog.models.map (·.name)).Nodup) :
    designError? c nl tally = blifError? c nl tally := by
  have htaken : firstTaken [] (designDeclared c nl tally) = none :=
    firstTaken_nil (Catalog.nodup_declaredNames h _)
  rw [blifError?_eq h, designError?, htaken, Option.map_none, Option.none_or, designDeclared_eq]

end Declared

/-- How an action ends for its caller: with an answer or an error of the circuit, or not at all where
it comes to a broken promise. -/
def verdict? {α : Type} (x : Emit α) (r : Run) : Option (Except EmitError Unit) :=
  match x r with
  | .ok _ _ => some (.ok ())
  | .error (.error e) _ => some (.error e)
  | .error _ _ => none

def verdictOf : Option EmitError → Except EmitError Unit
  | none => .ok ()
  | some e => .error e

theorem verdictOf_eq_ok_iff {error? : Option EmitError} :
    verdictOf error? = .ok () ↔ error? = none := by
  cases error? <;> simp [verdictOf]

theorem verdict?_of_writes {α : Type} {x : Emit α} {r : Run} {mark : UInt16}
    {error? : Option EmitError} {tally : Report} (h : WritesCircuit x r mark error? tally)
    {v : Except EmitError Unit} (hv : verdict? x r = some v) : v = verdictOf error? := by
  unfold verdict? at hv
  split at hv
  · next hx =>
    obtain ⟨rfl, -⟩ := Ends.of_ok h hx
    cases hv
    rfl
  · next hx =>
    obtain ⟨rfl, -⟩ := Ends.of_error h hx
    cases hv
    rfl
  · cases hv

end Emit

/-! ### The verdict on a circuit -/

/-- Nothing is wrong with the nodes and outputs of a circuit where primitives are well shaped and no
net that is read has several drivers. -/
theorem Netlist.Powered.circuitError?_eq_none_iff {nl : Netlist} (hnl : nl.Powered) (mark : UInt16) :
    (nl.instantiateAll mark).circuitError? = none ↔
      (∀ n ∈ nl.nodes.toList, n.kind.isPrimitive → n.shapeError? = none) ∧
        ∀ id ∈ nl.readPins, ∀ w, nl.netOf? id = some w → (nl.drivers w).length < 2 := by
  have hgraph := nl.graph_instantiateAll mark
  rw [Netlist.circuitError?_eq_none_iff, readPins_of_graph hgraph]
  refine and_congr (forall_nodes_of_graph hgraph fun _ => Iff.rfl) ?_
  refine forall_congr' fun id => imp_congr_right fun hid => ?_
  rw [readError?_eq_none_iff, drivers_of_graph hgraph, netRead_of_graph hgraph]
  obtain ⟨p, hp, hinput⟩ := hnl.pin_of_mem_readPins hid
  by_cases hundriven : nl.isUndriven id
  · -- the pin is read from ground, and its own net has no driver
    have hnone : ∀ w, nl.netOf? id = some w → (nl.drivers w).length < 2 := by
      obtain ⟨q, hq, -, hnil⟩ := isUndriven_iff.mp hundriven
      intro w hw
      rw [netOf?, hq, Option.bind_some] at hw
      rw [(hnil w hw).1]
      decide
    rw [netRead, if_pos hundriven, hnl.driven groundNet rfl]
    exact ⟨fun _ => hnone, fun _ => rfl⟩
  · obtain ⟨w, hw, hread, hconstant⟩ := netOf?_of_not_undriven hp hinput hundriven
    have hpos : nl.drivers w ≠ [] := by
      intro hnil
      rw [hnl.driven w (hconstant hnil)] at hnil
      exact List.cons_ne_nil _ _ hnil
    have hlength := List.length_pos_iff.mpr hpos
    rw [hread, hw]
    constructor
    · intro hone w' hw'
      cases hw'
      omega
    · intro hfew
      have hless := hfew w rfl
      omega

/-- The name of the top module is declared where a model of that name is used or written. -/
theorem topModule_mem_blifDeclared (circuit : Circuit) (config : Config) :
    config.topModule ∈ Emit.blifDeclared (Context.new circuit.catalog config)
        (circuit.netlist.instantiateAll config.traversalMark) {} ↔
      ∃ m ∈ circuit.catalog.models, Catalog.isReserved m = false ∧
        (m.used ∨ ∃ n ∈ circuit.netlist.nodes.toList,
          n.kind.isPrimitive ∧ n.kind = .hardBlock m.name) ∧ m.name = config.topModule := by
  have hgraph := circuit.netlist.graph_instantiateAll config.traversalMark
  have hnodes (model : String) := exists_nodes_of_graph hgraph
    (P := fun n => n.kind.isPrimitive ∧ n.kind = .hardBlock model) fun _ => Iff.rfl
  simp only [Emit.mem_blifDeclared, hnodes, List.not_mem_nil, false_or]
  exact circuit.catalog.exists_applyMemorySizes config fun _ _ _ => Iff.rfl

/-- Of a circuit that was read from a description the two writers make the same, unless one of them
comes to a broken promise: both write it or both stop at one error, and they write it just where it
can be written. -/
theorem writers_agree {d : CircuitDescription} {circuit : Circuit} (hbuild : d.build = .ok circuit)
    (config : Config) (blif design : Except EmitError Unit)
    (hblif : Emit.verdict? (Emit.writeBlif (Context.new circuit.catalog config))
      { netlist := circuit.netlist } = some blif)
    (hdesign : Emit.verdict? (Emit.buildDesign (Context.new circuit.catalog config))
      { netlist := circuit.netlist } = some design) :
    blif = design ∧ (blif = .ok () ↔ circuit.Writable config) := by
  obtain ⟨hpowered, hdistinct⟩ := CircuitDescription.sound_build hbuild
  have hwrites := Emit.writeBlif_writes (r := { netlist := circuit.netlist })
    (Context.new circuit.catalog config) hpowered.toCrossReferenced
  have hbuilds := Emit.buildDesign_writes (r := { netlist := circuit.netlist })
    (Context.new circuit.catalog config) hpowered.toCrossReferenced
  have hmodels : ((Context.new circuit.catalog config).catalog.models.map (·.name)).Nodup := by
    rwa [Context.new, Catalog.map_applyMemorySizes _ _ (·.name) fun _ _ _ => rfl]
  rw [Emit.designError?_eq hmodels] at hbuilds
  have hblif := Emit.verdict?_of_writes hwrites hblif
  have hdesign := Emit.verdict?_of_writes hbuilds hdesign
  refine ⟨hblif.trans hdesign.symm, ?_⟩
  rw [hblif, Emit.verdictOf_eq_ok_iff, Emit.blifError?_eq hmodels, Option.or_eq_none_iff]
  have htop : (if config.topModule ∈ Emit.blifDeclared (Context.new circuit.catalog config)
        (circuit.netlist.instantiateAll config.traversalMark) {} then
        some (EmitError.duplicateModule config.topModule) else none) = none ↔
      ¬ ∃ m ∈ circuit.catalog.models, Catalog.isReserved m = false ∧
        (m.used ∨ ∃ n ∈ circuit.netlist.nodes.toList,
          n.kind.isPrimitive ∧ n.kind = .hardBlock m.name) ∧ m.name = config.topModule := by
    rw [← topModule_mem_blifDeclared]
    simp
  refine (and_congr (hpowered.circuitError?_eq_none_iff config.traversalMark) htop).trans ?_
  constructor
  · intro h
    rcases h with ⟨⟨hshaped, hdriven⟩, hfree⟩
    exact ⟨hshaped, hdriven, fun m hm hreserved hwanted hname =>
      hfree ⟨m, hm, hreserved, hwanted, hname⟩⟩
  · intro h
    rcases h with ⟨hshaped, hdriven, hfree⟩
    refine ⟨⟨hshaped, hdriven⟩, ?_⟩
    intro h
    rcases h with ⟨m, hm, hreserved, hwanted, hname⟩
    exact hfree m hm hreserved hwanted hname

/-- An instance of a model, with an input and an output that are left open. -/
def blockDescription : CircuitDescription where
  models := [{ name := "m", inputs := [⟨"i", 1⟩], outputs := [⟨"o", 1⟩] }]
  nodes := [{
    name := "u"
    kind := .hardBlock "m"
    inputs := [{ mapping := "i", nets := [none] }]
    outputs := [{ mapping := "o", nets := [none] }] }]

def blockCircuit : Circuit := blockDescription.build.toOption.getD ⟨none, {}, {}⟩

theorem build_blockDescription : blockDescription.build = .ok blockCircuit :=
  eq_ok_getD (by decide +kernel) _

/-- It is written under the usual name of the top module, but not under that of its model. -/
theorem writers_agree_blockCircuit :
    blockDescription.build = .ok blockCircuit ∧ blockCircuit.Writable {} ∧
      ¬ blockCircuit.Writable { topModule := "m" } := by
  have hwritten := writers_agree build_blockDescription {} (.ok ()) (.ok ())
    (by decide +kernel) (by decide +kernel)
  have hclash := writers_agree build_blockDescription { topModule := "m" }
    (.error (.duplicateModule "m")) (.error (.duplicateModule "m"))
    (by decide +kernel) (by decide +kernel)
  exact ⟨build_blockDescription, hwritten.2.mp rfl, fun h => nomatch hclash.2.mpr h⟩

end CircuitLowering
