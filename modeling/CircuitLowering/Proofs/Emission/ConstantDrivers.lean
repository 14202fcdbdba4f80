import CircuitLowering.Proofs.Circuit.Interface
import CircuitLowering.Proofs.Emission.Bindings
import CircuitLowering.Proofs.Emission.Requests
import CircuitLowering.Proofs.Emission.Signals

/-!
# Drivers of the constants

A constant is a net, a node and a pin of one number, and all three are called alike.  No declaration of a
circuit reaches them: an output that would drive a constant net is refused, and an input of the circuit
that takes over the name of one gets a net of its own.  No request reaches them either: naming outputs
leaves pins alone that have names, and only input pins are tied.  So in a circuit that was read from a
description the constants are there (`CircuitDescription.supplied_of_build`), and whatever is asked of the
circuit they can be relied on (`reliable_of_reaches`): no driver is ever missing, and a pin that
is tied reads the ground pin under its name, which a design shows as the constant zero.
-/

namespace CircuitLowering

open Netlist

namespace Netlist

/-! ### The nodes of the constants -/

/-- Whether node, pin and net of the number `w` belong together under one name: the node has the pin as
its only output, and the pin drives the net. -/
structure Source (nl : Netlist) (w : Nat) (name : String) (kind : NodeKind) : Prop where
  netName : nl.netName? w = some (some name)
  pin : nl.pins[w]? = some (Builder.sourcePin name w w)
  nodeName : nl.nodeName? w = some name
  kind : nl.kind? w = some kind
  outputs : nl.pinsOfNode w .output = [w]

/-- Whether each of the three constants has its node, and its net no other driver. -/
structure Supplied (nl : Netlist) : Prop extends nl.Powered where
  ground : nl.Source groundNet groundName .ground
  power : nl.Source powerNet powerName .power
  pad : nl.Source padNet padName .pad

theorem Powered.wired {nl : Netlist} (hnl : nl.Powered) : nl.Wired :=
  ⟨hnl.toCrossReferenced, hnl.two_lt_nets⟩

section Source

variable {nl nl' : Netlist} {w : Nat} {name : String} {kind : NodeKind}

theorem Source.lt_nodes (h : nl.Source w name kind) : w < nl.nodes.size := by
  obtain ⟨n, hn, -⟩ := Option.map_eq_some_iff.mp h.nodeName
  exact (Array.getElem?_eq_some_iff.mp hn).1

/-- The driver that sits at the pin of a source. -/
theorem Source.driverAt (h : nl.Source w name kind) (padded : Bool) :
    nl.driverAt w padded = { pin := w, name, padded, constant := kind.constant? } := by
  obtain ⟨n, hn, hkind⟩ := Option.map_eq_some_iff.mp h.kind
  have hname : (nl.driverAt w padded).name = name := driverAt_name h.pin rfl padded
  unfold Netlist.driverAt at hname ⊢
  dsimp only at hname
  rw [hname, h.pin, Option.bind_some]
  have hconstant : (nl.nodes[(Builder.sourcePin name w w).node]?).bind (·.kind.constant?) =
      kind.constant? := by
    change (nl.nodes[w]?).bind (·.kind.constant?) = _
    rw [hn, Option.bind_some, hkind]
  rw [hconstant]

/-- The pin of a source has its name already. -/
theorem Source.instantiate (h : nl.Source w name kind) (id : NodeId) (mark : UInt16) :
    (nl.instantiate id mark).Source w name kind := by
  have hgraph := nl.graph_instantiate id mark
  have hnets : (nl.instantiate id mark).nets = nl.nets :=
    (congrArg Netlist.nets hgraph : (nl.instantiate id mark).graph.nets = nl.graph.nets)
  constructor
  · rw [netName?, hnets]
    exact h.netName
  · exact pins_instantiate_of_named h.pin rfl id mark
  · exact (map_nodes_of_graph hgraph (·.name) (fun _ => rfl) w).trans h.nodeName
  · exact (map_nodes_of_graph hgraph (·.kind) (fun _ => rfl) w).trans h.kind
  · rw [← pinsOfNode_graph, hgraph, pinsOfNode_graph]
    exact h.outputs

/-- The pin of a source is none that is tied. -/
theorem Source.connect_input (h : nl.Source w name kind) (net : NetId) {id : PinId} {p : Pin}
    (hp : nl.pins[id]? = some p) (hinput : p.direction = .input) :
    (nl.connect net id).Source w name kind := by
  have hne : w ≠ id := by
    rintro rfl
    cases hp.symm.trans h.pin
    cases hinput
  constructor
  · exact (netName?_connect _ _ _ _).trans h.netName
  · rw [getElem?_pins_connect, if_neg hne]
    exact h.pin
  · exact (nodeName?_connect _ _ _ _).trans h.nodeName
  · rw [kind?_of_nodes (nodes_connect _ _ _)]
    exact h.kind
  · rw [pinsOfNode_connect]
    exact h.outputs

end Source

theorem lasting_supplied : Lasting Supplied where
  driven hnl w hw := by
    rw [hnl.driven w hw]
    exact List.cons_ne_nil w []
  instantiate hnl id mark := {
    toPowered := hnl.toPowered.of_graph (graph_instantiate _ id mark)
    ground := hnl.ground.instantiate id mark
    power := hnl.power.instantiate id mark
    pad := hnl.pad.instantiate id mark }
  tie hnl id htie := by
    obtain ⟨⟨p, hp, hinput⟩, hground, rfl⟩ := connectAs_eq_ok_iff.mp htie
    refine ⟨hnl.toPowered.connect_input hground fun q hq => ?_, hnl.ground.connect_input _ hp hinput,
      hnl.power.connect_input _ hp hinput, hnl.pad.connect_input _ hp hinput⟩
    cases hp.symm.trans hq
    exact hinput

end Netlist

/-! ### Circuits -/

namespace Builder

variable {b b' : Builder} {w : Nat} {name : String} {kind : NodeKind}

/-- A source is none of the nodes that are added later. -/
theorem Extends.source {n : Nat} (h : Extends (· < b.netlist.nodes.size) n b b')
    {newKind : NodeKind} (hkinds : ∀ k, b'.netlist.kind? k =
      if k = b.netlist.nodes.size then some newKind else b.netlist.kind? k)
    (hsource : b.netlist.Source w name kind) : b'.netlist.Source w name kind where
  netName := h.netName w _ hsource.netName
  pin := h.pin w _ hsource.pin (by simp [sourcePin])
  nodeName := h.nodeName w name hsource.nodeName
  kind := by
    rw [hkinds, if_neg (Nat.ne_of_lt hsource.lt_nodes)]
    exact hsource.kind
  outputs := (congrFun (h.pins w hsource.lt_nodes) _).trans hsource.outputs

theorem Labelled.source_addInput (hb : b.Labelled) (hsource : b.netlist.Source w name kind)
    (input : String) : (b.addInput input).netlist.Source w name kind := by
  obtain ⟨hgrown, -⟩ := hb.addSource input
  have hkinds := b.netlist.kind?_addSource input .input
  rw [addInput_eq]
  generalize (b.netlist.addSource input .input).2.2 = nl at hgrown hkinds
  exact { hgrown.source hkinds hsource with }

theorem Labelled.source_addNode (hb : b.Labelled) (hsource : b.netlist.Source w name kind)
    {decl : NodeDeclaration} (h : b.addNode decl = .ok b') : b'.netlist.Source w name kind := by
  obtain ⟨hgrown, -, -⟩ := hb.addNode h
  obtain ⟨newKind, -, hkinds⟩ := kind?_addNode_eq_ok h
  exact hgrown.source hkinds hsource

theorem Labelled.source_addOutput (hb : b.Labelled) (hsource : b.netlist.Source w name kind)
    (output : String) : (b.addOutput output).netlist.Source w name kind := by
  have hgrown := (hb.addOutput output).grown
  have hkinds := b.kind?_addOutput output
  generalize b.addOutput output = b' at hgrown hkinds
  exact { hgrown.source hkinds hsource with }

end Builder

/-- A source that is there from the beginning is there in every circuit. -/
theorem CircuitDescription.source_of_build {d : CircuitDescription} {circuit : Circuit}
    (h : d.build = .ok circuit) {w : Nat} {name : String} {kind : NodeKind}
    (hinitial : initial.Source w name kind) : circuit.netlist.Source w name kind := by
  have hstart : (Builder.start d).netlist.Source w name kind := by
    refine Builder.start_keeps (P := fun b => b.netlist.Source w name kind) d ?_ ?_
    · intro b hnetlist _
      rw [hnetlist]
      exact hinitial
    · exact fun b input hb _ hsource => hb.source_addInput hsource input
  obtain ⟨b, -, hb, hnetlist⟩ := Builder.build_keeps (P := fun b => b.netlist.Source w name kind) h
    hstart (fun b decl b' hb hsource hadd => hb.source_addNode hsource hadd)
    fun b output hb hsource => hb.source_addOutput hsource output
  exact hnetlist ▸ hb

theorem CircuitDescription.supplied_of_build {d : CircuitDescription} {circuit : Circuit}
    (h : d.build = .ok circuit) : circuit.netlist.Supplied where
  toPowered := (sound_build h).1
  ground := source_of_build h ⟨by decide +kernel, by decide +kernel, by decide +kernel,
    by decide +kernel, by decide +kernel⟩
  power := source_of_build h ⟨by decide +kernel, by decide +kernel, by decide +kernel,
    by decide +kernel, by decide +kernel⟩
  pad := source_of_build h ⟨by decide +kernel, by decide +kernel, by decide +kernel,
    by decide +kernel, by decide +kernel⟩

/-! ### What ground is read as -/

def Driver.ground (padded : Bool) : Driver :=
  { pin := groundNet, name := groundName, padded, constant := some .zero }

namespace Module

theorem connections_addWire (m : Module) (name : String) (width : Nat) :
    (m.addWire name width).connections = m.connections := by
  unfold addWire
  split <;> rfl

theorem connections_driverBit (m : Module) (driver : Driver) :
    (m.driverBit driver).2.connections = m.connections := by
  unfold driverBit
  cases driver.constant with
  | some value => rfl
  | none => exact m.connections_addWire driver.name 1

theorem connections_connect {m m' : Module} {driven driving : Signal}
    (h : m.connect driven driving = .ok m') :
    m'.connections = m.connections ++ [(driven, driving)] := by
  unfold connect at h
  split at h
  · cases h
    rfl
  · cases h

end Module

namespace Netlist

variable {nl : Netlist} {id : PinId}

theorem padded_of_reading {driver : Driver} (h : nl.reading id = .ok driver) :
    driver.padded = nl.isUndriven id := by
  unfold reading at h
  split at h
  · cases h
  · cases h
    rfl
  · cases h

theorem Supplied.reading_of_undriven (hnl : nl.Supplied) (h : nl.isUndriven id) :
    nl.reading id = .ok (.ground true) := by
  have hdrivers : nl.drivers (nl.netRead id) = [groundNet] := by
    rw [netRead, if_pos h]
    exact hnl.driven groundNet rfl
  unfold reading
  rw [hdrivers]
  dsimp only
  rw [h, hnl.ground.driverAt]
  rfl

/-- A pin that was tied is on the ground net, and stays there. -/
theorem lasting_grounded (id : PinId) :
    Lasting fun nl => nl.Supplied ∧ nl.netOf? id = some groundNet where
  driven hnl := lasting_supplied.driven hnl.1
  instantiate hnl k mark :=
    ⟨lasting_supplied.instantiate hnl.1 k mark,
      (netOf?_of_graph (graph_instantiate _ k mark) id).trans hnl.2⟩
  tie hnl other htie := by
    refine ⟨lasting_supplied.tie hnl.1 other htie, ?_⟩
    obtain ⟨-, -, rfl⟩ := connectAs_eq_ok_iff.mp htie
    obtain ⟨p, hp, hnet⟩ := Option.bind_eq_some_iff.mp hnl.2
    rw [netOf?, getElem?_pins_connect, hp]
    split
    · rfl
    · exact hnet

/-- Whether outputs of the circuit are connected in a module to the bits that they read.  An output that is
called like the wire that it reads needs no connection. -/
def Connected (nl : Netlist) (ids : List NodeId) (m : Module) : Prop :=
  ∀ k ∈ ids, ∀ n pin pins, nl.nodes[k]? = some n → n.inputs = pin :: pins →
    nl.readBit pin ≠ .wire n.name 0 → (Signal.ofWire n.name 1, [nl.readBit pin]) ∈ m.connections

theorem connected_tie {ids : List NodeId} {m : Module} :
    (nl.tie id).Connected ids m ↔ nl.Connected ids m := by
  simp only [Connected, nodes_tie, readBit_tie]

theorem netOf?_tie_of_undriven (h : nl.isUndriven id) : (nl.tie id).netOf? id = some groundNet := by
  obtain ⟨p, hp, -⟩ := isUndriven_iff.mp h
  rw [netOf?, getElem?_pins_tie, if_pos ⟨rfl, h⟩, hp]
  rfl

end Netlist

namespace Emit

variable {r : Run} {id : PinId}

theorem resolve_padded (hr : r.netlist.Supplied) {driver : Driver} {s : Run}
    (h : resolve id r = .ok driver s) (hpadded : driver.padded = true) : driver = .ground true := by
  obtain ⟨hreading, -⟩ := (resolve_ends id).of_ok h
  rw [padded_of_reading hreading] at hpadded
  cases hreading.symm.trans (hr.reading_of_undriven hpadded)
  rfl

theorem resolve_undriven (hr : r.netlist.Supplied) (h : r.netlist.isUndriven id) :
    ∃ s, resolve id r = .ok (.ground true) s ∧ s.netlist = r.netlist.tie id := by
  obtain ⟨p, hp, hinput, -⟩ := isUndriven_iff.mp h
  have hreading := hr.reading_of_undriven h
  cases hrun : resolve id r with
  | ok driver s =>
    obtain ⟨hdriver, hsettles, -⟩ := (resolve_ends id).of_ok hrun
    cases hreading.symm.trans hdriver
    exact ⟨s, rfl, hsettles.netlist⟩
  | error f s =>
    obtain ⟨e, rfl⟩ := regular_resolve hr.toPowered.wired hp hinput f s hrun
    obtain ⟨herror, -⟩ := (resolve_ends id).of_error hrun
    cases hreading.symm.trans herror

theorem resolve_grounded (hr : r.netlist.Supplied) (h : r.netlist.netOf? id = some groundNet) :
    resolve id r = .ok (.ground false) r := by
  obtain ⟨p, hp, hnet⟩ := Option.bind_eq_some_iff.mp h
  rw [resolve_eq_driverAt hr.toCrossReferenced hp hnet (hr.driven groundNet rfl), hr.ground.driverAt]
  rfl

theorem bindInputs_padded (hr : r.netlist.Supplied) (slots : List Slot) :
    Ends (bindInputs slots) r
      (fun bs _ => ∀ b ∈ bs, b.driver.padded = true → b.driver = .ground true) fun _ _ => True := by
  induction slots generalizing r with
  | nil => exact ends_pure fun b hb => nomatch hb
  | cons slot slots ih =>
    refine Ends.bind ((bindingName_ends slot).imp ?_ fun _ _ h => h.elim)
    rintro port r₀ ⟨-, rfl⟩
    have hfirst := maintains_resolve lasting_supplied slot.pin r₀ hr
    refine Ends.bind ?_
    unfold Ends
    cases hrun : resolve slot.pin r₀ with
    | error f s => cases f <;> trivial
    | ok driver s =>
      refine Ends.bind ((ih (hfirst.of_ok hrun)).imp ?_ fun _ _ _ => trivial)
      intro bs _ hbs
      refine ends_pure fun b hb hpadded => ?_
      rcases List.mem_cons.mp hb with rfl | hb
      · exact resolve_padded hr hrun hpadded
      · exact hbs b hb hpadded

theorem assemble_padded (hr : r.netlist.Supplied) (k : NodeId) :
    Ends (assemble k) r
      (fun p _ => ∀ b ∈ p.inputs, b.driver.padded = true → b.driver = .ground true)
      fun _ _ => True := by
  unfold assemble
  refine Ends.bind (ends_ask fun n _ => Ends.bind (ends_require fun _ => ?_))
  refine Ends.bind (ends_require fun _ => ?_)
  cases n.shapeError? with
  | some reason => exact Ends.bind (ends_fail trivial)
  | none =>
    refine Ends.bind (ends_tell (Ends.bind ((bindInputs_padded ?_ n.inputSlots).imp ?_ ?_)))
    · exact hr
    · intro inputs _ hinputs
      exact ends_bind_any fun outputs _ => ends_pure hinputs
    · exact fun _ _ _ => trivial

/-- Outputs of the circuit are connected to the bits that they read. -/
theorem joinOutputs_connects (m : Module) (ids : List NodeId) :
    Ends (joinOutputs m ids) r
      (fun m' _ => m.connections ⊆ m'.connections ∧ r.netlist.Connected ids m') fun _ _ => True := by
  induction ids generalizing r m with
  | nil => exact ends_pure ⟨List.Subset.refl _, fun k hk => nomatch hk⟩
  | cons id ids ih =>
    refine Ends.bind (ends_ask fun output houtput => ?_)
    rw [node_eq_ok_iff] at houtput
    unfold resolveOutput
    cases hinputs : output.inputs with
    | nil => exact Ends.bind ends_fault
    | cons pin pins =>
      refine Ends.bind ((resolve_ends pin).imp ?_ fun _ _ _ => trivial)
      rintro driver s ⟨hreading, hsettles, -⟩
      have htie : s.netlist = r.netlist.tie pin := hsettles.netlist
      -- The other outputs only add connections to those that the first one leaves.
      have hrest {m₂ : Module} (hsub : m.connections ⊆ m₂.connections)
          (hfirst : r.netlist.readBit pin ≠ .wire output.name 0 →
            (Signal.ofWire output.name 1, [r.netlist.readBit pin]) ∈ m₂.connections) :
          Ends (joinOutputs m₂ ids) s
            (fun m' _ => m.connections ⊆ m'.connections ∧ r.netlist.Connected (id :: ids) m')
            fun _ _ => True := by
        refine (ih m₂).imp ?_ fun _ _ _ => trivial
        rintro m' - ⟨hgrown, hothers⟩
        rw [htie, connected_tie] at hothers
        refine ⟨List.Subset.trans hsub hgrown, List.forall_mem_cons.mpr ⟨?_, hothers⟩⟩
        intro n pin' pins' hn hpins hbit
        cases houtput.symm.trans hn
        cases hinputs.symm.trans hpins
        exact hgrown (hfirst hbit)
      have hbit : (m.driverBit driver).1 = r.netlist.readBit pin := by
        rw [m.driverBit_fst, readBit, hreading]
      have hsame : (m.driverBit driver).2.connections = m.connections := m.connections_driverBit driver
      generalize m.driverBit driver = joined at hbit hsame
      obtain ⟨bit, m₁⟩ := joined
      dsimp only at hbit hsame ⊢
      subst hbit
      split
      · next hwire => exact Ends.bind (ends_pure (hrest (fun _ h => hsame ▸ h) fun h => absurd hwire h))
      · refine Ends.bind (ends_demand fun m₂ hm₂ => ?_)
        have hconnections := Module.connections_connect hm₂
        rw [hsame] at hconnections
        refine hrest ?_ fun _ => ?_
        · rw [hconnections]
          exact List.subset_append_left _ _
        · rw [hconnections]
          exact List.mem_concat_self

end Emit

/-! ### Relying on the constants -/

/-- What can be relied on in a run, whatever is asked of its circuit. -/
structure Run.Reliable (r : Run) : Prop where
  /-- Each constant net is driven by its own pin and by no other, and all have kept their names. -/
  supplied : r.netlist.Supplied
  /-- No request fails because a constant net has no driver. -/
  present : ∀ (q : Request) name s, q.action r ≠ .error (.error (.missingDriver name)) s
  /-- A pin that nothing drives is resolved to the ground pin, and so it is ever after. -/
  tied : ∀ id, r.netlist.isUndriven id → ∃ s, Emit.resolve id r = .ok (.ground true) s ∧
    ∀ r' : Run, s.netlist.Reaches r'.netlist → Emit.resolve id r' = .ok (.ground false) r'
  /-- No driver that stands for a tie is another pin or has another name. -/
  padded : ∀ id driver s, Emit.resolve id r = .ok driver s → driver.padded → driver = .ground true
  /-- Neither is one that an assembled node is bound to, and the bit that the cell of the node gets for
  it is zero. -/
  bound : ∀ k p s, Emit.assemble k r = .ok p s → ∀ (i : Nat) (b : InputBinding), p.inputs[i]? = some b →
    b.driver.padded → b.driver = .ground true ∧
      ∀ m : Module, (m.driverBits (p.inputs.map (·.driver))).1[i]? = some (.const .zero)
  /-- An output of the circuit that nothing drives is connected to the constant zero. -/
  joined : ∀ m ids m' s, Emit.joinOutputs m ids r = .ok m' s → ∀ k ∈ ids, ∀ n pin pins,
    r.netlist.nodes[k]? = some n → n.inputs = pin :: pins → r.netlist.isUndriven pin →
      (Signal.ofWire n.name 1, [.const .zero]) ∈ m'.connections

theorem Run.reliable_of_supplied {r : Run} (hr : r.netlist.Supplied) : r.Reliable where
  supplied := hr
  present q name s h := (lasting_supplied.request_maintains q r hr).stops _ s h ⟨name, rfl⟩
  tied id h := by
    obtain ⟨s, hs, htie⟩ := Emit.resolve_undriven hr h
    refine ⟨s, hs, fun r' hreaches => ?_⟩
    have hfirst : s.netlist.Supplied ∧ s.netlist.netOf? id = some groundNet := by
      refine ⟨(Emit.maintains_resolve lasting_supplied id r hr).of_ok hs, ?_⟩
      rw [htie]
      exact netOf?_tie_of_undriven h
    obtain ⟨hsupplied, hground⟩ := (lasting_grounded id).of_reaches hreaches hfirst
    exact Emit.resolve_grounded hsupplied hground
  padded id driver s h hpadded := Emit.resolve_padded hr h hpadded
  bound k p s h i b hi hpadded := by
    have hground : b.driver = .ground true :=
      (Emit.assemble_padded hr k).of_ok h b (List.mem_of_getElem? hi) hpadded
    refine ⟨hground, fun m => ?_⟩
    rw [Module.driverBits_fst, List.getElem?_map, List.getElem?_map, hi, Option.map_some,
      Option.map_some, hground]
    rfl
  joined m ids m' s h k hk n pin pins hn hpins hundriven := by
    have hbit : r.netlist.readBit pin = .const .zero := by
      rw [readBit, hr.reading_of_undriven hundriven]
      rfl
    have hconnects := ((Emit.joinOutputs_connects m ids).of_ok h).2 k hk n pin pins hn hpins
    rw [hbit] at hconnects
    refine hconnects fun h => ?_
    cases h

/-- Whatever was asked before of a circuit that was read from a description, its constants can be relied
on. -/
theorem reliable_of_reaches {d : CircuitDescription} {circuit : Circuit} (h : d.build = .ok circuit)
    {r : Run} (hr : circuit.netlist.Reaches r.netlist) : r.Reliable :=
  Run.reliable_of_supplied (lasting_supplied.of_reaches hr (CircuitDescription.supplied_of_build h))

/-- An input that is called like the ground net, and two gates that read nets without driver. -/
def looseDescription : CircuitDescription where
  inputs := ["gnd"]
  outputs := ["y", "gnd"]
  nodes := [
    { name := "u"
      kind := .reduceOr
      inputs := [{ mapping := "A", nets := [some "gnd", some "p"] }]
      outputs := [{ mapping := "Y", nets := [none] }] },
    { name := "v"
      kind := .reduceAnd
      inputs := [{ mapping := "A", nets := [some "q"] }]
      outputs := [{ mapping := "Y", nets := [some "y"] }] }]

def looseCircuit : Circuit := looseDescription.build.toOption.getD ⟨none, {}, {}⟩

/-- A run on it after the first gate was written. -/
def looseRun : Run :=
  Emit.final (Request.emitBlif {} 4).action { netlist := looseCircuit.netlist }

theorem reliable_looseRun :
    looseDescription.build = .ok looseCircuit ∧ looseCircuit.netlist.Reaches looseRun.netlist ∧
      looseRun.netlist.netOf? 5 = some groundNet ∧ looseRun.netlist.isUndriven 7 ∧
      looseRun.Reliable := by
  have hbuild : looseDescription.build = .ok looseCircuit := eq_ok_getD (by decide +kernel) _
  have hstart : looseCircuit.netlist.Reaches ({ netlist := looseCircuit.netlist } : Run).netlist := by
    dsimp only
    exact .start
  have hreaches : looseCircuit.netlist.Reaches looseRun.netlist := by
    rw [looseRun]
    exact Reaches.request hstart (.emitBlif {} 4)
  refine ⟨hbuild, hreaches, by decide +kernel, by decide +kernel, ?_⟩
  exact reliable_of_reaches hbuild hreaches

end CircuitLowering
