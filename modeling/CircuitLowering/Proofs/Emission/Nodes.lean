import CircuitLowering.Proofs.Emission.Agreement
import CircuitLowering.Proofs.Emission.Returns
import CircuitLowering.Proofs.Emission.Verdict

/-!
# Nodes in two runs

The writers treat a node alike in two runs that stand alike.  Its pins have the same names and lead to
the same drivers in both, up to the mark of those that were tied, and neither the statement of a
primitive nor its cell shows that mark.  So a node gets the same statement or the same cell, or stops
both runs at the same failure (`Emit.emitBlif_agrees`, `Emit.emitCell_agrees`).
-/

namespace CircuitLowering

open Netlist

/-! ### What a primitive shows -/

theorem Primitive.inputNames_shown (p : Primitive) : p.shown.inputNames = p.inputNames := by
  simp only [inputNames, shown, List.map_map]
  rfl

theorem Blif.subcktLine_shown (p : Primitive) : subcktLine p.shown = subcktLine p := by
  simp only [subcktLine, Primitive.shown, List.map_map]
  rfl

theorem Blif.statement_shown (n : Node) (p : Primitive) (showParams : Bool) :
    statement n p.shown showParams = statement n p showParams := by
  have hlines : primitiveLines n p.shown showParams = primitiveLines n p showParams := by
    unfold primitiveLines
    rw [p.inputNames_shown, subcktLine_shown]
    rfl
  rw [statement, hlines, statement]

theorem Module.driverBits_shown (m : Module) (ds : List Driver) :
    m.driverBits (ds.map Driver.shown) = m.driverBits ds := by
  induction ds generalizing m with
  | nil => rfl
  | cons d ds ih =>
    have hdriver : m.driverBit d.shown = m.driverBit d := rfl
    simp only [List.map_cons, driverBits, hdriver, ih]

theorem Cell.ofPrimitive_shown (m : Module) (d : Design) (n : Node) (p : Primitive) :
    ofPrimitive m d n p.shown = ofPrimitive m d n p := by
  have hdrivers : p.shown.inputs.map (·.driver) = (p.inputs.map (·.driver)).map Driver.shown := by
    simp only [Primitive.shown, List.map_map]
    rfl
  have hports : p.shown.inputs.map (·.port) = p.inputs.map (·.port) := by
    simp only [Primitive.shown, List.map_map]
    rfl
  have hkind (m : Module) (inputs outputs : Signal) :
      ofKind m d n p.shown inputs outputs = ofKind m d n p inputs outputs := by
    unfold ofKind
    rw [hports]
    rfl
  unfold ofPrimitive
  rw [hdrivers, Module.driverBits_shown]
  simp only [hkind]
  rfl

namespace Emit

variable {mark : UInt16} {pins : PinId → Prop} {r r' : Run}

/-! ### Binding pins -/

/-- An input pin leads to the same driver or to the same error. -/
theorem resolve_agrees {id : PinId} {p : Pin} (hp : r.netlist.pins[id]? = some p)
    (hinput : p.direction = .input) (hid : pins id) :
    Agrees mark pins (resolve id) r (resolve id) r' fun d d' => d'.shown = d.shown := by
  intro halike
  have hreading := reading_of_settled halike.settled id
  obtain ⟨p', hp', hinput'⟩ : ∃ p', r'.netlist.pins[id]? = some p' ∧ p'.direction = .input := by
    rcases pins_of_settled halike.settled id with ⟨hnone, -⟩ | ⟨q, net, hq, hq'⟩
    · cases hnone.symm.trans hp
    · cases hq.symm.trans hp
      exact ⟨_, hq', hinput⟩
  have hregular := regular_resolve halike.wired hp hinput
  have hregular' := regular_resolve halike.wired' hp' hinput'
  have hids : ∀ j ∈ [id], pins j := by simpa using hid
  have hfollows {r s : Run} (hsettles : r.Settles [id] s)
      (htally : s.report.tally = r.report.tally) : r.Follows [id] s := by
    refine ⟨hsettles, fun model hmodel => Or.inl ?_⟩
    have hmodels := congrArg Report.referencedModels htally
    exact hmodels ▸ hmodel
  cases hx : resolve id r with
  | ok d s =>
    obtain ⟨hd, hs, htally⟩ := (resolve_ends id).of_ok hx
    cases hy : resolve id r' with
    | ok d' s' =>
      obtain ⟨hd', hs', htally'⟩ := (resolve_ends id).of_ok hy
      rw [hd, hd'] at hreading
      exact ⟨Except.ok.inj hreading, [id], hids, hfollows hs htally, hfollows hs' htally'⟩
    | error f s' =>
      obtain ⟨e, rfl⟩ := hregular' f s' hy
      obtain ⟨he, -⟩ := (resolve_ends id).of_error hy
      rw [hd, he] at hreading
      exact nomatch hreading
  | error f s =>
    obtain ⟨e, rfl⟩ := hregular f s hx
    obtain ⟨he, hs, htally⟩ := (resolve_ends id).of_error hx
    cases hy : resolve id r' with
    | ok d' s' =>
      obtain ⟨hd', -⟩ := (resolve_ends id).of_ok hy
      rw [he, hd'] at hreading
      exact nomatch hreading
    | error f' s' =>
      obtain ⟨e', rfl⟩ := hregular' f' s' hy
      obtain ⟨he', hs', htally'⟩ := (resolve_ends id).of_error hy
      rw [he, he'] at hreading
      refine ⟨?_, [id], hids, hfollows hs htally, hfollows hs' htally'⟩
      rw [Except.error.inj hreading]

theorem bindingName_agrees (slot : Slot) :
    Agrees mark pins (bindingName slot) r (bindingName slot) r' Eq := by
  refine agrees_view_bind (·.mapping) (fun h => ?_) fun p p' _ hmapping => agrees_pure ?_
  · unfold pin
    rcases pins_of_settled h slot.pin with ⟨hp, hp'⟩ | ⟨p, net, hp, hp'⟩
    · rw [hp, hp']
    · rw [hp, hp']
      rfl
  · rw [hmapping]

/-- A pin that a node lists among its inputs is an input pin. -/
theorem bindInputs_agrees {k : NodeId} {n : Node} (hn : r.netlist.nodes[k]? = some n)
    {slots : List Slot} (hslots : ∀ slot ∈ slots, slot.pin ∈ n.inputs) :
    Agrees mark (· ∈ n.inputs) (bindInputs slots) r (bindInputs slots) r'
      fun bs bs' => bs'.map InputBinding.shown = bs.map InputBinding.shown := by
  induction slots generalizing r r' with
  | nil => exact agrees_pure rfl
  | cons slot slots ih =>
    have hslot := hslots slot List.mem_cons_self
    refine (bindingName_agrees slot).bind ?_
    intro port port' s s' _ _ hport hs halike
    subst hport
    rw [← hs.nodes] at hn
    obtain ⟨p, hp, -, hinput⟩ := halike.wired.pin_of_mem .input hn hslot
    refine Agrees.bind (resolve_agrees hp hinput hslot) ?_ halike
    intro d d' t t' _ _ hd ht
    rw [← ht.nodes] at hn
    refine (ih hn fun slot' hslot' => hslots slot' (List.mem_cons_of_mem _ hslot')).bind ?_
    intro bs bs' u u' _ _ hbs _
    refine agrees_pure ?_
    rw [List.map_cons, List.map_cons, hbs, InputBinding.shown, hd, InputBinding.shown]

theorem bindOutputs_agrees (slots : List Slot) :
    Agrees mark pins (bindOutputs slots) r (bindOutputs slots) r' Eq := by
  induction slots generalizing r r' with
  | nil => exact agrees_pure rfl
  | cons slot slots ih =>
    refine (bindingName_agrees slot).bind ?_
    intro port port' s s' _ _ hport _
    subst hport
    refine agrees_ask_bind (fun h => pinLabel_of_settled h slot.pin) fun name _ => ?_
    refine ih.bind ?_
    intro bs bs' t t' _ _ hbs _
    subst hbs
    exact agrees_pure rfl

theorem assemble_agrees {id : NodeId} {n : Node} (hn : r.netlist.nodes[id]? = some n) :
    Agrees mark (· ∈ n.inputs) (assemble id) r (assemble id) r' fun p p' => p'.shown = p.shown := by
  unfold assemble
  apply agrees_node_bind
  intro n' hn'
  cases hn.symm.trans hn'
  refine agrees_require_bind (agrees_require_bind ?_)
  cases n.shapeError? with
  | some reason => exact (agrees_fail _).stop_bind
  | none =>
    apply agrees_tell_bind_any
    intro s s' hs _ _ _
    rw [← hs] at hn
    refine (bindInputs_agrees hn fun _ => Node.pin_mem_inputs).bind ?_
    intro inputs inputs' t t' _ _ hinputs _
    refine (bindOutputs_agrees n.outputSlots).bind ?_
    intro outputs outputs' t t' _ _ houtputs _
    subst houtputs
    exact agrees_pure (congrArg (Primitive.mk id n.name _ · outputs) hinputs)

/-! ### One node -/

theorem skip_agrees (n : Node) : Agrees mark pins (skip n) r (skip n) r' Eq := by
  have hcount (r r' : Run) : Agrees mark pins
      (modifyReport fun report => { report with skipped := report.skipped + 1 }) r
      (modifyReport fun report => { report with skipped := report.skipped + 1 }) r' Eq :=
    fun _ => ⟨rfl, Run.together_nil (Run.follows_nil rfl rfl rfl) (Run.follows_nil rfl rfl rfl)⟩
  unfold skip
  split
  · exact agrees_tell_bind (hcount _ _)
  · exact hcount r r'

/-- Comparing a node with its model references no model but that of a hard block. -/
theorem reference_agrees (c : Context) {n : Node} (hn : n ∈ r.netlist.nodes.toList)
    (hn' : n ∈ r'.netlist.nodes.toList) :
    Agrees mark pins (reference c n) r (reference c n) r' Eq := by
  have hreference {model : String} (hkind : n.kind = .hardBlock model) (r r' : Run)
      (hn : n ∈ r.netlist.nodes.toList) (hn' : n ∈ r'.netlist.nodes.toList) :
      Agrees mark pins (modifyReport (·.reference model)) r (modifyReport (·.reference model)) r'
        Eq := by
    have hfollows {r : Run} (hn : n ∈ r.netlist.nodes.toList) :
        r.Follows [] { r with report := r.report.reference model } := by
      refine ⟨Run.settles_nil rfl (r.report.diagnostics_reference model), ?_⟩
      intro other hother
      rcases mem_referencedModels_reference.mp hother with hbefore | rfl
      · exact Or.inl hbefore
      · exact Or.inr (mem_hardBlockModels.mpr ⟨n, hn, hkind⟩)
    exact fun _ => ⟨rfl, Run.together_nil (hfollows hn) (hfollows hn')⟩
  unfold reference
  cases hkind : n.kind with
  | hardBlock model =>
    dsimp only
    cases c.catalog.find? model with
    | none => exact agrees_tell_bind (hreference hkind _ _ hn hn')
    | some declared =>
      exact agrees_ok_bind rfl rfl (agrees_tellAll_bind (hreference hkind _ _ hn hn'))
  | _ => exact agrees_pure rfl

theorem countEmitted_agrees (c : Context) {n : Node} (hn : n ∈ r.netlist.nodes.toList)
    (hn' : n ∈ r'.netlist.nodes.toList) :
    Agrees mark pins (countEmitted c n) r (countEmitted c n) r' Eq := by
  refine (reference_agrees c hn hn').bind ?_
  intro _ _ s s' _ _ _ _ _
  exact ⟨rfl, Run.together_nil (Run.follows_nil rfl rfl rfl) (Run.follows_nil rfl rfl rfl)⟩

def PinsOfNode (nl : Netlist) (id : NodeId) (pin : PinId) : Prop := pin ∈ nl.pinsOfNode id .input

/-- A node is treated alike by an action that goes on in its own form once the pins are bound, if that
form cannot tell primitives apart that are shown alike. -/
theorem agrees_of_form {α : Type} {id : NodeId} {form : Node → Primitive → Emit (Option α)}
    (hform : ∀ n p p' s s', n ∈ s.netlist.nodes.toList → n ∈ s'.netlist.nodes.toList →
      p'.shown = p.shown → Agrees mark (PinsOfNode r.netlist id) (form n p) s (form n p') s' Eq) :
    let x : Emit (Option α) := do
      let n ← ask (·.node id)
      if n.kind.isPrimitive then
        instantiate id mark
        let p ← assemble id
        form n p
      else
        skip n
        return none
    Agrees mark (PinsOfNode r.netlist id) x r x r' Eq := by
  intro x halike
  refine agrees_node_bind (fun n hn => ?_) halike
  have hn' : r'.netlist.nodes[id]? = some n := by rwa [nodes_of_settled halike.settled]
  by_cases hkind : n.kind.isPrimitive
  · rw [if_pos hkind]
    have hinputs : ∀ pin, pin ∈ n.inputs → PinsOfNode r.netlist id pin := by
      intro pin hpin
      rw [PinsOfNode, pinsOfNode, hn]
      exact hpin
    refine agrees_ok_bind (instantiate_eq_ok hn (halike.prepared.instantiated id n hn hkind))
      (instantiate_eq_ok hn' (halike.prepared'.instantiated id n hn' hkind)) ?_
    refine ((assemble_agrees hn).mono hinputs).bind ?_
    intro p p' s s' _ _ hp hs
    apply hform n p p' s s' _ _ hp
    · rw [hs.nodes]
      exact Array.mem_toList_iff.mpr (Array.mem_of_getElem? hn)
    · rw [hs.nodes']
      exact Array.mem_toList_iff.mpr (Array.mem_of_getElem? hn')
  · rw [if_neg hkind]
    exact (skip_agrees n).bind fun _ _ _ _ _ _ _ _ => agrees_pure rfl

theorem emitBlif_agrees (c : Context) (id : NodeId) :
    Agrees c.config.traversalMark (PinsOfNode r.netlist id) (emitBlif c id) r (emitBlif c id) r'
      Eq := by
  apply agrees_of_form
  intro n p p' s s' hn hn' hp
  have hstatement : Blif.statement n p' c.config.emitParams
      = Blif.statement n p c.config.emitParams := by
    rw [← Blif.statement_shown, hp, Blif.statement_shown]
  rw [hstatement]
  refine (agrees_demand _).bind ?_
  intro text text' t t' _ _ htext ht
  subst htext
  refine (countEmitted_agrees c ?_ ?_).bind fun _ _ _ _ _ _ _ _ => agrees_pure rfl
  · rwa [ht.nodes]
  · rwa [ht.nodes']

theorem emitCell_agrees (c : Context) (d : Design) (m : Module) (id : NodeId) :
    Agrees c.config.traversalMark (PinsOfNode r.netlist id) (emitCell c d m id) r
      (emitCell c d m id) r' Eq := by
  apply agrees_of_form
  intro n p p' s s' hn hn' hp
  have hcell : Cell.ofPrimitive m d n p' = Cell.ofPrimitive m d n p := by
    rw [← Cell.ofPrimitive_shown, hp, Cell.ofPrimitive_shown]
  have hname : p'.shown.name = p.shown.name := by rw [hp]
  change p'.name = p.name at hname
  rw [hcell, hname]
  refine (agrees_demand _).bind ?_
  intro cell cell' t t' _ _ hcell ht
  subst hcell
  refine (agrees_demand _).bind ?_
  intro m' m'' u u' _ _ hm hu
  subst hm
  refine (countEmitted_agrees c ?_ ?_).bind fun _ _ _ _ _ _ _ _ => agrees_pure rfl
  · rwa [hu.nodes, ht.nodes]
  · rwa [hu.nodes', ht.nodes']

end Emit

end CircuitLowering
