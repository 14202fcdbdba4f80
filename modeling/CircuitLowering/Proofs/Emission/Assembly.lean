import CircuitLowering.Emission.Writer
import CircuitLowering.Proofs.Emission.Reads

/-!
# Writing nodes

The two writers treat a node alike: they instantiate it, bind its pins, put it into their own form
and count it.  What they read, where they stop and how they count does not depend on the form, so the
lemmas come in pairs with one statement, `Emit.WritesNode`.

The writers come to a netlist that is `Prepared`: the outputs of all primitives have been named, and
every node has as many pins as its ports have room for.  No tie changes that.
-/

namespace CircuitLowering

/-! ### What a node contributes -/

def Node.pinsRead (n : Node) : List PinId := if n.kind.isPrimitive then n.inputs else []

/-- Why a primitive cannot be written, if it cannot: the first thing that is wrong. -/
def Netlist.primitiveError? (nl : Netlist) (n : Node) : Option EmitError :=
  (n.shapeError?.map (.malformedNode n.name)).or (nl.firstReadError? n.inputs)

def Netlist.nodeError? (nl : Netlist) (n : Node) : Option EmitError :=
  if n.kind.isPrimitive then nl.primitiveError? n else none

def Report.note (r : Report) (n : Node) : Report :=
  match n.kind with
  | .hardBlock model => r.reference model
  | _ => r

def Report.count (r : Report) (n : Node) : Report :=
  if n.kind.isPrimitive then { r.note n with emitted := r.emitted + 1 }
  else { r with skipped := r.skipped + 1 }

theorem Report.diagnostics_reference (r : Report) (model : String) :
    (r.reference model).diagnostics = r.diagnostics := by
  unfold reference
  split <;> rfl

theorem Report.tally_reference (r : Report) (model : String) :
    (r.reference model).tally = r.tally.reference model := by
  unfold reference
  by_cases h : model ∈ r.referencedModels
  · rw [if_pos h, if_pos (show model ∈ r.tally.referencedModels from h)]
  · rw [if_neg h, if_neg (show model ∉ r.tally.referencedModels from h)]
    rfl

theorem Report.diagnostics_foldl_reference (r : Report) (models : List String) :
    (models.foldl reference r).diagnostics = r.diagnostics := by
  induction models generalizing r with
  | nil => rfl
  | cons model models ih => exact (ih (r.reference model)).trans (r.diagnostics_reference model)

theorem Report.tally_foldl_reference (r : Report) (models : List String) :
    (models.foldl reference r).tally = models.foldl reference r.tally := by
  induction models generalizing r with
  | nil => rfl
  | cons model models ih =>
    rw [List.foldl_cons, ih, tally_reference, List.foldl_cons]

theorem Report.emitted_note (r : Report) (n : Node) : (r.note n).emitted = r.emitted := by
  unfold note reference
  split
  · split <;> rfl
  · rfl

theorem Report.tally_note (r : Report) (n : Node) : (r.note n).tally = r.tally.note n := by
  unfold note
  split
  · exact r.tally_reference _
  · rfl

/-- A netlist as the writers come to its nodes. -/
structure Netlist.Prepared (nl : Netlist) (mark : UInt16) : Prop where
  instantiated : nl.Instantiated mark
  sized : ∀ (k : NodeId) (n : Node), nl.nodes[k]? = some n → n.inputs.length = n.inputSizes.sum

namespace Netlist

section Prepared

variable {nl : Netlist} {mark : UInt16}

theorem CrossReferenced.prepared (hnl : nl.CrossReferenced) (mark : UInt16) :
    (nl.instantiateAll mark).Prepared mark where
  instantiated := instantiated_instantiateAll nl mark
  sized _ _ hn := (hnl.of_graph (nl.graph_instantiateAll mark)).length_pins .input hn

theorem isNamed_tie (id j : PinId) : (nl.tie id).isNamed j = nl.isNamed j := by
  unfold isNamed
  rcases nl.pins_tie_cases id j with h | ⟨p, hp, h⟩
  · rw [h]
  · rw [h, hp]
    rfl

theorem Prepared.tie (hnl : nl.Prepared mark) (id : PinId) : (nl.tie id).Prepared mark where
  instantiated k n hn hkind := by
    rw [nodes_tie] at hn
    intro n' hn'
    rw [nodes_tie] at hn'
    simpa only [isNamed_tie] using hnl.instantiated k n hn hkind n' hn'
  sized k n hn := hnl.sized k n (by rwa [nodes_tie] at hn)

theorem Prepared.tieAll (hnl : nl.Prepared mark) (ids : List PinId) :
    (nl.tieAll ids).Prepared mark := by
  induction ids generalizing nl with
  | nil => exact hnl
  | cons id ids ih => exact ih (hnl.tie id)

end Prepared

@[simp] theorem nodeError?_tieAll (nl : Netlist) (ids : List PinId) (n : Node) :
    (nl.tieAll ids).nodeError? n = nl.nodeError? n := by
  simp only [nodeError?, primitiveError?, firstReadError?_tieAll]

end Netlist

namespace Emit

open Netlist

variable {r : Run}

/-! ### Binding pins -/

theorem bindingName_reads (slot : Slot) : Reads (bindingName slot) r none [] fun _ r' => r' = r :=
  reads_ask_bind fun _ _ => reads_pure rfl

theorem bindInputs_reads (slots : List Slot) :
    Reads (bindInputs slots) r (r.netlist.firstReadError? (slots.map (·.pin))) (slots.map (·.pin))
      fun bs r' => bs.map (·.slot) = slots ∧ r'.report.tally = r.report.tally := by
  induction slots generalizing r with
  | nil => exact reads_pure ⟨rfl, rfl⟩
  | cons slot slots ih =>
    rw [List.map_cons, firstReadError?_cons]
    refine (bindingName_reads slot).silent_bind ?_
    intro port _ _ hend
    subst hend
    apply (resolve_reads slot.pin).bind
    intro d r₁ hd htally
    have hrest := ih (r := r₁)
    rw [hd.netlist, firstReadError?_tieAll] at hrest
    refine hrest.bind_silent ?_
    intro bs r₂ _ hend
    rcases hend with ⟨hslots, htally'⟩
    exact reads_pure ⟨by rw [List.map_cons, hslots], htally'.trans htally⟩

theorem bindOutputs_reads (slots : List Slot) :
    Reads (bindOutputs slots) r none [] fun bs r' => bs.map (·.slot) = slots ∧ r' = r := by
  induction slots with
  | nil => exact reads_pure ⟨rfl, rfl⟩
  | cons slot slots ih =>
    refine (bindingName_reads slot).silent_bind ?_
    intro port _ _ hend
    subst hend
    refine reads_ask_bind fun name _ => ih.silent_bind ?_
    intro bs _ _ hend
    rcases hend with ⟨hslots, rfl⟩
    exact reads_pure ⟨by rw [List.map_cons, hslots], rfl⟩

/-- Assembling a primitive checks its shape and then reads its input pins. -/
theorem assemble_reads {id : NodeId} {n : Node} (hn : r.netlist.nodes[id]? = some n)
    (hsized : n.inputs.length = n.inputSizes.sum) :
    Reads (assemble id) r (r.netlist.primitiveError? n) n.inputs
      fun p r' => p.cellType = n.kind.cellType?.getD "" ∧ p.inputs.map (·.slot) = n.inputSlots ∧
        p.outputs.map (·.slot) = n.outputSlots ∧ r'.report.tally = r.report.tally := by
  have hpins : n.inputSlots.map (·.pin) = n.inputs := Node.map_pin_inputSlots hsized
  unfold assemble
  apply reads_ask_bind
  intro n' hn'
  rw [node_eq_ok_iff, hn, Option.some.injEq] at hn'
  subst hn'
  refine reads_require_bind fun _ => reads_require_bind fun _ => ?_
  unfold primitiveError?
  cases n.shapeError? with
  | some reason => exact reads_fail _
  | none =>
    refine reads_tell_bind ?_
    have hinputs := bindInputs_reads n.inputSlots
      (r := { r with log := r.log.push (.primitiveAssembled n.name n.kind.display) })
    rw [hpins] at hinputs
    refine hinputs.bind_silent ?_
    intro inputs r₁ _ hend
    rcases hend with ⟨hinputs, htally⟩
    refine (bindOutputs_reads n.outputSlots).silent_bind ?_
    intro outputs _ _ hend
    rcases hend with ⟨houtputs, rfl⟩
    exact reads_pure ⟨rfl, hinputs, houtputs, htally⟩

/-! ### One node -/

/-- Whether the action writes the node `n`: it reads the pins of the node, stops where the node cannot
be written, and counts it. -/
def WritesNode {α : Type} (x : Emit α) (r : Run) (n : Node) : Prop :=
  Reads x r (r.netlist.nodeError? n) n.pinsRead fun _ r' =>
    r'.report.tally = r.report.tally.count n

/-- To instantiate a node of a prepared netlist changes nothing. -/
theorem instantiate_reads {id : NodeId} {mark : UInt16} (h : r.netlist.InstantiatedAt mark id) :
    Reads (instantiate id mark) r none [] fun _ r' => r' = r := by
  refine reads_of_ends (Ends.bind (Ends.bind (ends_ask fun _ _ => ends_pure ?_)))
  refine ends_modifyNetlist ?_
  rw [h.instantiate_eq]
  exact ⟨rfl, rfl, rfl⟩

theorem skip_reads {n : Node} (hn : ¬ n.kind.isPrimitive) :
    Reads (skip n) r none [] fun _ r' => r'.report.tally = r.report.tally.count n := by
  have hskipped (r : Run) :
      Reads (modifyReport fun r => { r with skipped := r.skipped + 1 }) r none []
        fun _ r' => r'.report.tally = r.report.tally.count n := by
    refine reads_of_ends (ends_modifyReport ⟨rfl, rfl, ?_⟩)
    rw [Report.count, if_neg hn]
    rfl
  unfold skip
  split
  · exact reads_tell_bind (hskipped _)
  · exact hskipped r

/-- All that comparing a node with its model does to the report is to note the node. -/
theorem reference_reads (c : Context) (n : Node) :
    Reads (reference c n) r none [] fun _ r' => r'.report = r.report.note n := by
  have hreference (r : Run) (model : String) :
      Reads (modifyReport (·.reference model)) r none [] fun _ r' =>
        r'.report = r.report.reference model :=
    reads_of_ends (ends_modifyReport ⟨rfl, r.report.diagnostics_reference model, rfl⟩)
  unfold reference Report.note
  generalize n.kind = kind
  cases kind with
  | hardBlock model =>
    dsimp only
    cases c.catalog.find? model with
    | none => exact reads_tell_bind (hreference _ model)
    | some declared => exact reads_get_bind (reads_tellAll_bind (hreference _ model))
  | _ => exact reads_pure rfl

theorem countEmitted_reads (c : Context) {n : Node} (hn : n.kind.isPrimitive) :
    Reads (countEmitted c n) r none [] fun _ r' => r'.report.tally = r.report.tally.count n := by
  unfold countEmitted
  apply (reference_reads c n).silent_bind
  intro _ r₁ _ hr₁
  refine reads_of_ends (ends_modifyReport ⟨rfl, rfl, ?_⟩)
  rw [Report.count, if_pos hn, ← Report.tally_note, hr₁]
  have hemitted : (r.report.note n).emitted = r.report.emitted := r.report.emitted_note n
  simp only [Report.tally, hemitted]

/-- To count a node is always possible. -/
theorem countEmitted_eq_ok (c : Context) (n : Node) (r : Run) :
    ∃ r', countEmitted c n r = .ok () r' := by
  unfold countEmitted reference
  cases n.kind with
  | hardBlock model =>
    dsimp only
    cases c.catalog.find? model with
    | none => exact ⟨_, rfl⟩
    | some declared => exact ⟨_, rfl⟩
  | _ => exact ⟨_, rfl⟩

/-- A node is written by an action that goes on in its own form once the pins are bound. -/
theorem writesNode_of_form {α : Type} {id : NodeId} {n : Node} {mark : UInt16}
    (hnl : r.netlist.Prepared mark) (hn : r.netlist.nodes[id]? = some n)
    {form : Node → Primitive → Emit (Option α)}
    (hform : n.kind.isPrimitive → ∀ p r', Reads (form n p) r' none [] fun _ r'' =>
      r''.report.tally = r'.report.tally.count n) :
    WritesNode (do
      let n ← ask (·.node id)
      if n.kind.isPrimitive then
        instantiate id mark
        let p ← assemble id
        form n p
      else
        skip n
        return none) r n := by
  unfold WritesNode
  apply reads_ask_bind
  intro n' hn'
  rw [node_eq_ok_iff, hn, Option.some.injEq] at hn'
  subst hn'
  by_cases hkind : n.kind.isPrimitive
  · rw [if_pos hkind, nodeError?, if_pos hkind, Node.pinsRead, if_pos hkind]
    refine (instantiate_reads (hnl.instantiated id n hn hkind)).silent_bind ?_
    intro _ _ _ hend
    subst hend
    refine (assemble_reads hn (hnl.sized id n hn)).bind_silent ?_
    intro p r₁ _ hend
    rcases hend with ⟨-, -, -, htally⟩
    rw [← htally]
    exact hform hkind p r₁
  · rw [if_neg hkind, nodeError?, if_neg hkind, Node.pinsRead, if_neg hkind]
    exact (skip_reads hkind).silent_bind fun _ _ _ htally => reads_pure htally

theorem emitBlif_writes (c : Context) {id : NodeId} {n : Node}
    (hnl : r.netlist.Prepared c.config.traversalMark) (hn : r.netlist.nodes[id]? = some n) :
    WritesNode (emitBlif c id) r n := by
  apply writesNode_of_form hnl hn
  intro hkind p r'
  apply reads_demand_bind
  intro text _
  exact (countEmitted_reads c hkind).silent_bind fun _ _ _ hcount => reads_pure hcount

theorem emitCell_writes (c : Context) (d : Design) (m : Module) {id : NodeId} {n : Node}
    (hnl : r.netlist.Prepared c.config.traversalMark) (hn : r.netlist.nodes[id]? = some n) :
    WritesNode (emitCell c d m id) r n := by
  apply writesNode_of_form hnl hn
  intro hkind p r'
  refine reads_demand_bind fun cell _ => reads_demand_bind fun m' _ => ?_
  exact (countEmitted_reads c hkind).silent_bind fun _ _ _ hcount => reads_pure hcount

end Emit

end CircuitLowering
