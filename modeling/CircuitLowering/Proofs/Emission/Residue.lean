import CircuitLowering.Emission.Sink
import CircuitLowering.Proofs.Circuit.Acceptance
import CircuitLowering.Proofs.Emission.Reports
import CircuitLowering.Proofs.Emission.Settled
import CircuitLowering.Proofs.Emission.Ties

/-!
# What a failed step leaves behind

That a node cannot be written shows at one of its pins, when the pins before it have been read and the
undriven ones among them repaired.  `Run.Leaves` says place by place what is left of that: the mark of the
node, the names of its outputs, and the pins that were moved to ground with a diagnostic for each.
`Run.Abandons` says where the step stopped, which decides what was moved.

What is written is not touched by a step that fails: not the text, not the module, and not the output of
a whole circuit (`Write.failures_leave_sinks`).
-/

namespace CircuitLowering

open Netlist

namespace Netlist

/-! ### Names given to outputs -/

/-- The name that an output pin of a node gets if it has none. -/
def newName? (nl : Netlist) (id : NodeId) (pin : PinId) (mapping : String) : Option String :=
  (nl.nodes[id]?).bind fun n =>
    (n.outputSlots.find? (·.pin = pin)).map (Slot.outputName n.name mapping)

theorem getElem?_pins_foldl_nameSlot_eq (nl : Netlist) (name : String) (slots : List Slot) (j : PinId) :
    (slots.foldl (nameSlot name) nl).pins[j]? = (nl.pins[j]?).map fun p =>
      { p with name := p.name.or ((slots.find? (·.pin = j)).map (Slot.outputName name p.mapping)) } := by
  induction slots generalizing nl with
  | nil => simp
  | cons slot slots ih =>
    rw [List.foldl_cons, ih, getElem?_pins_nameSlot]
    by_cases hj : slot.pin = j
    · rw [if_pos hj, Option.map_map]
      refine congrArg (Option.map · nl.pins[j]?) (funext fun p => ?_)
      cases hname : p.name <;> simp [hj, hname]
    · simp [hj]

theorem getElem?_pins_instantiate (nl : Netlist) (id : NodeId) (mark : UInt16) (j : PinId) :
    (nl.instantiate id mark).pins[j]? = (nl.pins[j]?).map fun p =>
      { p with name := p.name.or (nl.newName? id j p.mapping) } := by
  unfold instantiate newName?
  cases nl.nodes[id]? with
  | none => simp
  | some n => exact nl.getElem?_pins_foldl_nameSlot_eq n.name n.outputSlots j

/-! ### Where a node stops -/

/-- Where and why writing a node stops: before its pins, which do not fit its kind, or at the last of
some first pins, which leads to the error as none before it does. -/
inductive StopsAt (nl : Netlist) (n : Node) : EmitError → List PinId → Prop where
  | shape {reason : String} (hshape : n.shapeError? = some reason) :
      StopsAt nl n (.malformedNode n.name reason) []
  | pin {e : EmitError} {before : List PinId} {pin : PinId} (hshape : n.shapeError? = none)
      (hread : before ++ [pin] <+: n.inputs) (hbefore : ∀ q ∈ before, nl.readError? q = none)
      (hpin : nl.readError? pin = some e) : StopsAt nl n e (before ++ [pin])

theorem StopsAt.isPrefix {nl : Netlist} {n : Node} {e : EmitError} {read : List PinId}
    (h : nl.StopsAt n e read) : read <+: n.inputs := by
  cases h with
  | shape hshape => exact List.nil_prefix
  | pin hshape hread hbefore hpin => exact hread

end Netlist

/-- How `r'` stands where nothing was done to `r` but to instantiate the node `id` and to repair its pins
`moved`. -/
structure Run.Leaves (r : Run) (id : NodeId) (mark : UInt16) (moved : List PinId) (r' : Run) : Prop where
  /-- A pin that was moved is an input of the node and had no net, or one that is neither driven nor
  constant. -/
  undriven : ∀ pin ∈ moved, ∃ p, r.netlist.pins[pin]? = some p ∧ p.node = id ∧ p.direction = .input ∧
    ∀ w, p.net = some w → r.netlist.drivers w = [] ∧ isConstantNet w = false
  distinct : moved.Nodup
  /-- The report has one more diagnostic for each pin that was moved, in their order. -/
  report : r'.report =
    { r.report with diagnostics := r.report.diagnostics ++ moved.map r.netlist.diagnostic }
  nodes : ∀ k : NodeId, r'.netlist.nodes[k]? =
    (r.netlist.nodes[k]?).map fun n => if k = id then { n with mark := mark } else n
  pins : ∀ pin : PinId, r'.netlist.pins[pin]? = (r.netlist.pins[pin]?).map fun p =>
    { p with
      name := p.name.or (r.netlist.newName? id pin p.mapping)
      net := if pin ∈ moved then some groundNet else p.net }
  nets : ∀ w : NetId, r'.netlist.nets[w]? = (r.netlist.nets[w]?).map fun n =>
    { n with
      sinks := if w = groundNet then n.sinks ++ moved else n.sinks.filter (· ∉ moved) }
  topInputs : r'.netlist.topInputs = r.netlist.topInputs
  topOutputs : r'.netlist.topOutputs = r.netlist.topOutputs

/-- How `r'` stands where the node `id` of `r` could not be written. -/
def Run.Abandons (r : Run) (id : NodeId) (mark : UInt16) (e : EmitError) (r' : Run) : Prop :=
  ∃ n read, r.netlist.nodes[id]? = some n ∧ n.kind.isPrimitive ∧ r.netlist.StopsAt n e read ∧
    r.Leaves id mark (r.netlist.repaired read) r'

section Leaving

variable {r r' : Run} {id : NodeId} {mark : UInt16} {n : Node}

/-- What is left of a run that instantiates a node and then settles inputs of it. -/
theorem Run.leaves_of_settles (hnl : r.netlist.CrossReferenced) (hn : r.netlist.nodes[id]? = some n)
    {read : List PinId} (hread : ∀ pin ∈ read, pin ∈ n.inputs)
    (hsettles : { r with netlist := r.netlist.instantiate id mark }.Settles read r')
    (htally : r'.report.tally = r.report.tally) :
    r.Leaves id mark (r.netlist.repaired read) r' := by
  have hgraph := r.netlist.graph_instantiate id mark
  have hnl' : (r.netlist.instantiate id mark).CrossReferenced := hnl.of_graph hgraph
  have hnets : (r.netlist.instantiate id mark).nets = r.netlist.nets :=
    (congrArg Netlist.nets hgraph :
      (r.netlist.instantiate id mark).graph.nets = r.netlist.graph.nets)
  have hrepaired : (r.netlist.instantiate id mark).repaired read = r.netlist.repaired read := by
    have hundriven : (r.netlist.instantiate id mark).isUndriven = r.netlist.isUndriven :=
      funext fun pin => isUndriven_of_graph hgraph pin
    rw [repaired, repaired, hundriven]
  have hinput : ∀ pin ∈ r.netlist.repaired read, ∃ p, r.netlist.pins[pin]? = some p ∧ p.node = id ∧
      p.direction = .input := fun pin hpin =>
    hnl.pin_of_mem .input hn (hread pin (List.mem_eraseDups.mp (List.mem_filter.mp hpin).1))
  constructor
  · intro pin hpin
    obtain ⟨p, hp, hnode, hdirection⟩ := hinput pin hpin
    obtain ⟨p', hp', -, hnet⟩ := isUndriven_iff.mp (List.mem_filter.mp hpin).2
    cases hp.symm.trans hp'
    exact ⟨p, hp, hnode, hdirection, hnet⟩
  · exact r.netlist.nodup_repaired read
  · rw [Report.eq_of_tally htally, hsettles.diagnostics, repairs, hrepaired]
    have hdiagnostics : (r.netlist.repaired read).map (r.netlist.instantiate id mark).diagnostic =
        (r.netlist.repaired read).map r.netlist.diagnostic := by
      refine List.map_congr_left fun pin hpin => ?_
      obtain ⟨p, hp, -, hdirection⟩ := hinput pin hpin
      exact diagnostic_of_graph hgraph ((hnl.pins_instantiate hp hdirection id mark).trans hp.symm)
    rw [hdiagnostics]
  · intro k
    rw [hsettles.netlist, nodes_tieAll, getElem?_nodes_instantiate]
    by_cases hk : id = k
    · simp [hk]
    · simp [hk, Ne.symm hk]
  · intro pin
    rw [hsettles.netlist, getElem?_pins_tieAll, getElem?_pins_instantiate, Option.map_map, hrepaired]
    rfl
  · intro w
    rw [hsettles.netlist, getElem?_nets_tieAll, hnets]
    cases hw : r.netlist.nets[w]? with
    | none => rfl
    | some net =>
      rw [Option.map_some, Option.map_some, hnl'.sinksAfter_eq (hnets ▸ hw), hrepaired]
  · rw [hsettles.netlist]
    exact (tieAll_keeps _ read (·.topInputs) topInputs_tie).trans (topInputs_of_graph hgraph)
  · rw [hsettles.netlist]
    exact (tieAll_keeps _ read (·.topOutputs) topOutputs_tie).trans (topOutputs_of_graph hgraph)

/-- Where a node stops does not depend on the names of its outputs and its mark. -/
theorem Netlist.StopsAt.of_instantiate {nl : Netlist} {e : EmitError} {read : List PinId}
    (hnl : nl.CrossReferenced) (hn : nl.nodes[id]? = some n)
    (h : (nl.instantiate id mark).StopsAt { n with mark := mark } e read) : nl.StopsAt n e read := by
  cases h with
  | shape hshape => exact .shape hshape
  | @pin e before pin hshape hread hbefore hpin =>
    have hsame : ∀ q ∈ before ++ [pin], (nl.instantiate id mark).readError? q = nl.readError? q := by
      intro q hq
      obtain ⟨p, hp, -, hinput⟩ := hnl.pin_of_mem .input hn (hread.subset hq)
      exact readError?_of_graph (nl.graph_instantiate id mark)
        ((hnl.pins_instantiate hp hinput id mark).trans hp.symm)
    refine .pin hshape hread ?_ ?_
    · intro q hq
      rw [← hsame q (List.mem_append_left _ hq)]
      exact hbefore q hq
    · rw [← hsame pin (List.mem_append_right _ (List.mem_singleton_self pin))]
      exact hpin

end Leaving

namespace Emit

variable {r : Run}

/-! ### One node -/

/-- Binding inputs stops at the first pin that leads to an error, with the pins up to it settled. -/
theorem bindInputs_stops (slots : List Slot) :
    Ends (bindInputs slots) r (fun _ _ => True) fun e r' => ∃ before pin,
      before ++ [pin] <+: slots.map (·.pin) ∧ (∀ q ∈ before, r.netlist.readError? q = none) ∧
        r.netlist.readError? pin = some e ∧ r.Settles (before ++ [pin]) r' ∧
          r'.report.tally = r.report.tally := by
  induction slots generalizing r with
  | nil => exact ends_pure trivial
  | cons slot slots ih =>
    refine Ends.bind (Ends.imp (bindingName_reads slot) ?_ fun e r' h => nomatch h.1)
    rintro port r' ⟨-, -, rfl⟩
    refine Ends.bind ((resolve_ends slot.pin).imp ?_ ?_)
    · rintro driver r₁ ⟨hreading, hsettles, htally⟩
      have hfirst : r'.netlist.readError? slot.pin = none := by rw [readError?, hreading]
      refine Ends.bind (ih.imp (fun _ _ _ => ends_pure trivial) ?_)
      rintro e r₂ ⟨before, pin, hread, hbefore, hpin, hsettles', htally'⟩
      simp only [hsettles.netlist, readError?_tieAll] at hbefore hpin
      refine ⟨slot.pin :: before, pin, ?_, List.forall_mem_cons.mpr ⟨hfirst, hbefore⟩, hpin,
        hsettles.trans hsettles', htally'.trans htally⟩
      exact List.prefix_cons_inj slot.pin |>.mpr hread
    · rintro e r₁ ⟨hreading, hsettles, htally⟩
      refine ⟨[], slot.pin, ?_, List.forall_mem_nil _, ?_, hsettles, htally⟩
      · exact List.prefix_cons_inj slot.pin |>.mpr List.nil_prefix
      · rw [readError?, hreading]

/-- Assembling a primitive stops where the node stops. -/
theorem assemble_stops {id : NodeId} {n : Node} (hnl : r.netlist.CrossReferenced)
    (hn : r.netlist.nodes[id]? = some n) :
    Ends (assemble id) r (fun _ _ => True) fun e r' => ∃ read, r.netlist.StopsAt n e read ∧
      r.Settles read r' ∧ r'.report.tally = r.report.tally := by
  have hpins : n.inputSlots.map (·.pin) = n.inputs :=
    Node.map_pin_inputSlots (hnl.length_pins .input hn)
  unfold assemble
  refine Ends.bind (ends_ask fun n' hn' => ?_)
  cases hn.symm.trans (node_eq_ok_iff.mp hn')
  refine Ends.bind (ends_require fun _ => Ends.bind (ends_require fun _ => ?_))
  cases hshape : n.shapeError? with
  | some reason => exact Ends.bind (ends_fail ⟨[], .shape hshape, Run.settles_nil rfl rfl, rfl⟩)
  | none =>
    refine Ends.bind (ends_tell (Ends.bind ((bindInputs_stops n.inputSlots).imp ?_ ?_)))
    · intro inputs r₁ _
      refine Ends.bind (Ends.imp (bindOutputs_reads n.outputSlots) (fun _ _ _ => ends_pure trivial) ?_)
      intro e r' h
      cases h.1
    · rintro e r₁ ⟨before, pin, hread, hbefore, hpin, hsettles, htally⟩
      rw [hpins] at hread
      exact ⟨_, .pin hshape hread hbefore hpin, ⟨hsettles.netlist, hsettles.diagnostics⟩, htally⟩

/-- A node is abandoned by an action that goes on in its own form once the pins are bound, and does not
fail from there on. -/
theorem abandons_of_form {α : Type} {id : NodeId} {mark : UInt16} (hnl : r.netlist.CrossReferenced)
    {form : Node → Primitive → Emit (Option α)}
    (hform : ∀ n p r', Ends (form n p) r' (fun _ _ => True) fun _ _ => False) :
    Ends (do
      let n ← ask (·.node id)
      if n.kind.isPrimitive then
        instantiate id mark
        let p ← assemble id
        form n p
      else
        skip n
        return none) r (fun _ _ => True) fun e r' => r.Abandons id mark e r' := by
  refine Ends.bind (ends_ask fun n hn => ?_)
  rw [node_eq_ok_iff] at hn
  by_cases hkind : n.kind.isPrimitive
  · rw [if_pos hkind]
    refine Ends.bind (Ends.bind (Ends.bind (ends_ask fun _ _ => ends_pure (ends_modifyNetlist ?_))))
    have hgraph := r.netlist.graph_instantiate id mark
    have hnode : (r.netlist.instantiate id mark).nodes[id]? = some { n with mark := mark } := by
      rw [getElem?_nodes_instantiate, if_pos rfl, hn, Option.map_some]
    refine Ends.bind (Ends.imp (assemble_stops (hnl.of_graph hgraph) hnode) ?_ ?_)
    · exact fun p r' _ => Ends.imp (hform n p r') (fun _ _ _ => trivial) fun _ _ h => h.elim
    · rintro e r' ⟨read, hstops, hsettles, htally⟩
      have hstops : r.netlist.StopsAt n e read := hstops.of_instantiate hnl hn
      exact ⟨n, read, hn, hkind, hstops,
        Run.leaves_of_settles hnl hn (fun _ hpin => hstops.isPrefix.subset hpin) hsettles htally⟩
  · rw [if_neg hkind]
    refine Ends.bind (Ends.imp (skip_reads hkind) (fun _ _ _ => ends_pure trivial) ?_)
    exact fun e r' h => nomatch h.1

theorem emitBlif_abandons (c : Context) {id : NodeId} (hnl : r.netlist.CrossReferenced) :
    Ends (emitBlif c id) r (fun _ _ => True) fun e r' =>
      r.Abandons id c.config.traversalMark e r' := by
  refine abandons_of_form hnl fun n p r' => ?_
  refine Ends.bind (ends_demand fun text _ => ?_)
  obtain ⟨_, hcount⟩ := countEmitted_eq_ok c n r'
  exact Ends.bind (ends_of_ok hcount (ends_pure trivial))

theorem emitCell_abandons (c : Context) (d : Design) (m : Module) {id : NodeId}
    (hnl : r.netlist.CrossReferenced) :
    Ends (emitCell c d m id) r (fun _ _ => True) fun e r' =>
      r.Abandons id c.config.traversalMark e r' := by
  refine abandons_of_form hnl fun n p r' => ?_
  refine Ends.bind (ends_demand fun cell _ => Ends.bind (ends_demand fun m' _ => ?_))
  obtain ⟨_, hcount⟩ := countEmitted_eq_ok c n r'
  exact Ends.bind (ends_of_ok hcount (ends_pure trivial))

end Emit

/-! ### Sinks -/

namespace Write

open Emit

variable {σ α β : Type}

/-- Whether an action that writes to a sink does what an action of the run does, and `put`s the answer
into the sink. Where the run comes to an error of the circuit, the sink is as it was. -/
def Places (put : σ → α → σ) (s : Writing σ) (x : Write σ Emission) (y : Emit (Option α)) : Prop :=
  match y s.run with
  | .ok (some a) r => x s = .ok .emitted { run := r, sink := put s.sink a }
  | .ok none r => x s = .ok .skipped { run := r, sink := s.sink }
  | .error (.error e) r => x s = .error (.failed (.error e)) { run := r, sink := s.sink }
  | .error f r => ∃ sink, x s = .error (.failed f) { run := r, sink }

section Placing

variable {put : σ → α → σ} {s s' : Writing σ} {x : Write σ Emission} {y : Emit (Option α)}

theorem Places.of_error {e : EmitError} (h : Places put s x y)
    (hx : x s = .error (.failed (.error e)) s') :
    y s.run = .error (.error e) s'.run ∧ s'.sink = s.sink := by
  unfold Places at h
  rcases hy : y s.run with ⟨a | a, r⟩ | ⟨f, r⟩
  · rw [hy] at h
    cases hx.symm.trans h
  · rw [hy] at h
    cases hx.symm.trans h
  · rw [hy] at h
    cases f with
    | error e' =>
      cases hx.symm.trans h
      exact ⟨rfl, rfl⟩
    | violated i =>
      obtain ⟨sink, h⟩ := h
      cases hx.symm.trans h
    | fault f =>
      obtain ⟨sink, h⟩ := h
      cases hx.symm.trans h

theorem places_step_bind {z : Emit β} {f : β → Write σ Emission} {g : β → Emit (Option α)}
    (h : ∀ b r, z s.run = .ok b r → Places put { s with run := r } (f b) (g b)) :
    Places put s (step z >>= f) (z >>= g) := by
  unfold Places
  change match EStateM.bind z g s.run with
    | .ok (some a) r => EStateM.bind (step z) f s = .ok .emitted { run := r, sink := put s.sink a }
    | .ok none r => EStateM.bind (step z) f s = .ok .skipped { run := r, sink := s.sink }
    | .error (.error e) r =>
      EStateM.bind (step z) f s = .error (.failed (.error e)) { run := r, sink := s.sink }
    | .error f' r => ∃ sink, EStateM.bind (step z) f s = .error (.failed f') { run := r, sink }
  unfold EStateM.bind step
  cases hz : z s.run with
  | ok b r => exact h b r hz
  | error failure r =>
    cases failure with
    | error e => rfl
    | violated i => exact ⟨_, rfl⟩
    | fault f => exact ⟨_, rfl⟩

theorem fill_apply (f : σ → σ) (s : Writing σ) : fill f s = .ok () { s with sink := f s.sink } := rfl

theorem places_get_bind {f : Writing σ → Write σ Emission} (h : Places put s (f s) y) :
    Places put s (get >>= f) y := h

end Placing

theorem appendStatement_places (c : Context) (id : NodeId) (s : Writing String) :
    Places (· ++ ·) s (appendStatement c id) (emitBlif c id) := by
  unfold appendStatement emitBlif
  refine places_step_bind fun n r _ => ?_
  split
  · refine places_step_bind fun _ r _ => places_step_bind fun p r _ => ?_
    refine places_step_bind fun text r _ => ?_
    obtain ⟨r', hcount⟩ := countEmitted_eq_ok c n r
    unfold Places
    simp only [bind, EStateM.bind, fill_apply, step, hcount]
    rfl
  · exact places_step_bind fun _ r _ => rfl

/-- The cell is the answer of a step that takes the module as it is. -/
theorem addCell_places (c : Context) (d : Design) (id : NodeId) (s : Writing Module) :
    Places (fun _ m => m) s (addCell c d id) (emitCell c d s.sink id) := by
  unfold addCell emitCell
  refine places_step_bind fun n r _ => ?_
  split
  · refine places_step_bind fun _ r _ => places_step_bind fun p r _ => ?_
    refine places_get_bind (places_step_bind fun cell r _ => ?_)
    obtain ⟨r', hcount⟩ := countEmitted_eq_ok c n r
    unfold Places
    cases hadd : cell.2.addCell p.name cell.1 with
    | ok m =>
      simp only [bind, EStateM.bind, fill_apply, step, hadd, demand, pure, EStateM.pure, hcount]
    | error f =>
      have hdemand (r : Run) : (demand (.error f) : Emit Module) r = .error (.fault f) r := rfl
      simp only [bind, EStateM.bind, fill_apply, step, hadd, hdemand]
      exact ⟨_, rfl⟩
  · exact places_step_bind fun _ r _ => rfl

/-- What comes before the output is poured leaves it alone. -/
theorem step_pour_eq {x : Emit String} {out : Output σ} {s s' : Writing σ} {f : Failure}
    (h : (step x >>= pour out) s = .error (.failed f) s') :
    x s.run = .error f s'.run ∧ s'.sink = s.sink := by
  change EStateM.bind (step x) (pour out) s = _ at h
  unfold EStateM.bind step at h
  cases hx : x s.run with
  | ok text r =>
    rw [hx] at h
    simp only [pour] at h
    split at h
    · cases h
    · cases h
  | error f' r =>
    rw [hx] at h
    cases h
    exact ⟨rfl, rfl⟩

theorem step_bind (x : Emit α) (f : α → Emit β) :
    (step (x >>= f) : Write σ β) = step x >>= fun a => step (f a) := by
  funext s
  simp only [step, bind, EStateM.bind]
  cases x s.run <;> rfl

theorem putRtlil_eq (out : Output σ) (c : Context) :
    putRtlil out c = step (writeRtlil c) >>= pour out := by
  unfold putRtlil writeRtlil
  rw [step_bind, bind_assoc]

theorem putJson_eq (out : Output σ) (c : Context) :
    putJson out c = step (writeJson c) >>= pour out := by
  unfold putJson writeJson
  rw [step_bind, bind_assoc]

/-- Where a node cannot be written, the text or the module is as it was, and of the run nothing is left but
the mark of the node, the names of its outputs and the repairs up to the pin at which it stopped. Where a
circuit cannot be written, its output is as it was. -/
theorem failures_leave_sinks (c : Context) :
    (∀ (id : NodeId) (s s' : Writing String) (e : EmitError), s.run.netlist.CrossReferenced →
      appendStatement c id s = .error (.failed (.error e)) s' →
      s'.sink = s.sink ∧ s.run.Abandons id c.config.traversalMark e s'.run) ∧
    (∀ (d : Design) (id : NodeId) (s s' : Writing Module) (e : EmitError),
      s.run.netlist.CrossReferenced → addCell c d id s = .error (.failed (.error e)) s' →
      s'.sink = s.sink ∧ s.run.Abandons id c.config.traversalMark e s'.run) ∧
    ∀ {σ : Type} (out : Output σ) (s s' : Writing σ) (e : EmitError),
      putBlif out c s = .error (.failed (.error e)) s' ∨
        putRtlil out c s = .error (.failed (.error e)) s' ∨
        putJson out c s = .error (.failed (.error e)) s' → s'.sink = s.sink := by
  refine ⟨?_, ?_, ?_⟩
  · intro id s s' e hnl h
    obtain ⟨hrun, hsink⟩ := (appendStatement_places c id s).of_error h
    exact ⟨hsink, (emitBlif_abandons c hnl).of_error hrun⟩
  · intro d id s s' e hnl h
    obtain ⟨hrun, hsink⟩ := (addCell_places c d id s).of_error h
    exact ⟨hsink, (emitCell_abandons c d s.sink hnl).of_error hrun⟩
  · rintro σ out s s' e (h | h | h)
    · exact (step_pour_eq h).2
    · rw [putRtlil_eq] at h
      exact (step_pour_eq h).2
    · rw [putJson_eq] at h
      exact (step_pour_eq h).2

/-- Whether an action that writes to a sink ends with an error of the circuit. -/
def fails (x : Write σ α) (s : Writing σ) : Bool :=
  match x s with
  | .error (.failed (.error _)) _ => true
  | _ => false

theorem exists_of_fails {x : Write σ α} {s : Writing σ} (h : fails x s = true) :
    ∃ e s', x s = .error (.failed (.error e)) s' := by
  unfold fails at h
  split at h
  · next e s' hx => exact ⟨e, s', hx⟩
  · cases h

end Write

/-! ### A node that stops at its second pin -/

/-- A gate whose first pin is undriven and whose second pin is driven twice. -/
def stuckDescription : CircuitDescription where
  inputs := ["a"]
  nodes := [
    { name := "p"
      kind := .reduceOr
      inputs := [{ mapping := "A", nets := [some "a"] }]
      outputs := [{ mapping := "Y", nets := [some "n"] }] },
    { name := "q"
      kind := .reduceAnd
      inputs := [{ mapping := "A", nets := [some "a"] }]
      outputs := [{ mapping := "Y", nets := [some "n"] }] },
    { name := "u"
      kind := .reduceOr
      inputs := [{ mapping := "A", nets := [some "open", some "n"] }]
      outputs := [{ mapping := "Y", nets := [none] }] }]

def stuckCircuit : Circuit := stuckDescription.build.toOption.getD ⟨none, {}, {}⟩

theorem build_stuckDescription : stuckDescription.build = .ok stuckCircuit :=
  eq_ok_getD (by decide +kernel) _

def stuckRun : Run := { netlist := stuckCircuit.netlist }

def Write.collect : Write.Output String := fun old new => (old ++ new, true)

/-- The gate is not written in either form, nor is the circuit, and what was there before stays. -/
theorem failures_leave_sinks_stuckCircuit :
    stuckRun.netlist.CrossReferenced ∧
      (∃ e s', Write.appendStatement {} 6 ⟨stuckRun, "text"⟩ = .error (.failed (.error e)) s' ∧
        s'.sink = "text" ∧ stuckRun.Abandons 6 (Context.config {}).traversalMark e s'.run) ∧
      (∃ e s', Write.addCell {} {} 6 ⟨stuckRun, {}⟩ = .error (.failed (.error e)) s' ∧
        s'.sink = {} ∧ stuckRun.Abandons 6 (Context.config {}).traversalMark e s'.run) ∧
      ∃ e s', Write.putBlif Write.collect {} ⟨stuckRun, "text"⟩ = .error (.failed (.error e)) s' ∧
        s'.sink = "text" := by
  have hnl : stuckRun.netlist.CrossReferenced := by
    dsimp only [stuckRun]
    exact (CircuitDescription.sound_build build_stuckDescription).1.toCrossReferenced
  have hstatement : Write.fails (Write.appendStatement {} 6) ⟨stuckRun, "text"⟩ = true := by
    decide +kernel
  have hcell : Write.fails (Write.addCell {} {} 6) ⟨stuckRun, {}⟩ = true := by decide +kernel
  have hcircuit : Write.fails (Write.putBlif Write.collect {}) ⟨stuckRun, "text"⟩ = true := by
    decide +kernel
  obtain ⟨htext, hmodule, houtput⟩ := Write.failures_leave_sinks {}
  obtain ⟨e, s, h⟩ := Write.exists_of_fails hstatement
  obtain ⟨e', s', h'⟩ := Write.exists_of_fails hcell
  obtain ⟨e'', s'', h''⟩ := Write.exists_of_fails hcircuit
  exact ⟨hnl, ⟨e, s, h, htext 6 ⟨stuckRun, "text"⟩ s e hnl h⟩,
    ⟨e', s', h', hmodule {} 6 ⟨stuckRun, {}⟩ s' e' hnl h'⟩,
    ⟨e'', s'', h'', houtput Write.collect ⟨stuckRun, "text"⟩ s'' e'' (.inl h'')⟩⟩

end CircuitLowering
