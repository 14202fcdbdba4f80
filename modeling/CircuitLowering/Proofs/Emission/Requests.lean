import CircuitLowering.Proofs.Emission.Regular
import CircuitLowering.Proofs.Emission.Residue
import CircuitLowering.Proofs.Emission.Sessions

/-!
# Requests to a circuit

A caller of a circuit asks for the names of a node, for the driver of a pin, for a node or for all of
it, in any order and with any settings.  What any of these requests does to the netlist is one of two
things, again and again: it names the outputs of a node, or it ties an input pin to ground.
`Netlist.Lasting` says of a property that it survives both and that no constant net is without driver
where it holds.  Such a property holds wherever a request ends, also where it fails or breaks a promise,
and no request fails because a driver is missing (`Netlist.Lasting.request_maintains`).  So it holds of every
netlist that requests can lead to (`Netlist.Lasting.of_reaches`).
-/

namespace CircuitLowering

def Failure.IsMissing (f : Failure) : Prop := ∃ name, f = .error (.missingDriver name)

/-- Whether a property survives what requests do to a netlist. -/
structure Netlist.Lasting (P : Netlist → Prop) : Prop where
  driven : ∀ {nl : Netlist}, P nl → ∀ w, isConstantNet w → nl.drivers w ≠ []
  instantiate : ∀ {nl : Netlist}, P nl → ∀ id mark, P (nl.instantiate id mark)
  tie : ∀ {nl nl' : Netlist}, P nl → ∀ id, nl.connectSink groundNet id = .ok nl' → P nl'

theorem Netlist.Lasting.instantiateAll {P : Netlist → Prop} (hP : Lasting P) {nl : Netlist}
    (hnl : P nl) (mark : UInt16) : P (nl.instantiateAll mark) := by
  unfold Netlist.instantiateAll
  generalize nl.primitiveIds = ids
  induction ids generalizing nl with
  | nil => exact hnl
  | cons id ids ih => exact ih (hP.instantiate hnl id mark)

namespace Emit

open Netlist

variable {α β : Type} {P : Netlist → Prop} {r : Run}

/-- Whether `P` holds of the netlist where the action started in `r` ends, however it ends, and the
action does not fail because a driver is missing. -/
structure Lasts (P : Netlist → Prop) (x : Emit α) (r : Run) : Prop where
  netlist : P (final x r).netlist
  stops : Stops (fun f => ¬ f.IsMissing) x r

def Maintains (P : Netlist → Prop) (x : Emit α) : Prop := ∀ r, P r.netlist → Lasts P x r

/-! ### How such actions are built -/

theorem Lasts.of_ok {x : Emit α} {a : α} {s : Run} (h : Lasts P x r) (hx : x r = .ok a s) :
    P s.netlist := by
  have hfinal := h.netlist
  rwa [final, hx] at hfinal

theorem lasts_of_ok {x : Emit α} {a : α} {s : Run} (hx : x r = .ok a s) (hs : P s.netlist) :
    Lasts P x r where
  netlist := by rwa [final, hx]
  stops := fun _ _ herror => nomatch hx.symm.trans herror

theorem lasts_of_error {x : Emit α} {f : Failure} {s : Run} (hx : x r = .error f s)
    (hs : P s.netlist) (hf : ¬ f.IsMissing) : Lasts P x r where
  netlist := by rwa [final, hx]
  stops := by
    intro f' s' herror
    cases hx.symm.trans herror
    exact hf

theorem Lasts.bind {x : Emit α} {f : α → Emit β} (hx : Lasts P x r)
    (hf : ∀ a s, x r = .ok a s → P s.netlist → Lasts P (f a) s) : Lasts P (x >>= f) r := by
  have hrun : (x >>= f) r = EStateM.bind x f r := rfl
  unfold EStateM.bind at hrun
  cases hxr : x r with
  | ok a s =>
    have hnext := hf a s hxr (hx.of_ok hxr)
    rw [hxr] at hrun
    refine ⟨?_, fun failure s' herror => hnext.stops failure s' (hrun.symm.trans herror)⟩
    rw [final, hrun]
    exact hnext.netlist
  | error failure s =>
    have hfinal := hx.netlist
    rw [final, hxr] at hfinal
    rw [hxr] at hrun
    exact lasts_of_error hrun hfinal (hx.stops failure s hxr)

theorem Maintains.bind {x : Emit α} {f : α → Emit β} (hx : Maintains P x)
    (hf : ∀ a, Maintains P (f a)) : Maintains P (x >>= f) :=
  fun r hr => (hx r hr).bind fun a s _ hs => hf a s hs

/-! Actions that leave the netlist alone keep any property of it. -/

theorem maintains_pure (a : α) : Maintains P (pure a) := fun _ hr => lasts_of_ok rfl hr

theorem maintains_get : Maintains P (get : Emit Run) := fun _ hr => lasts_of_ok rfl hr

theorem maintains_tell (e : Event) : Maintains P (tell e) := fun _ hr => lasts_of_ok rfl hr

theorem maintains_tellAll (es : List Event) : Maintains P (tellAll es) := fun _ hr => lasts_of_ok rfl hr

theorem maintains_modifyReport (f : Report → Report) : Maintains P (modifyReport f) :=
  fun _ hr => lasts_of_ok rfl hr

theorem maintains_fail {e : EmitError} (h : ∀ name, e ≠ .missingDriver name) :
    Maintains P (fail e : Emit α) := by
  intro r hr
  refine lasts_of_error (s := r) rfl hr ?_
  rintro ⟨name, hname⟩
  cases hname
  exact h name rfl

theorem maintains_fault (f : Fault) : Maintains P (throw (.fault f) : Emit α) := by
  intro r hr
  refine lasts_of_error (s := r) rfl hr ?_
  rintro ⟨name, hname⟩
  cases hname

theorem maintains_demand (x : Except Fault α) : Maintains P (demand x) := by
  cases x with
  | ok a => exact maintains_pure a
  | error f => exact maintains_fault f

theorem maintains_ask (query : Netlist → Except Fault α) : Maintains P (ask query) :=
  maintains_get.bind fun _ => maintains_demand _

theorem maintains_require (i : Invariant) (holds : Bool) : Maintains P (require i holds) := by
  cases holds with
  | true => exact maintains_pure ()
  | false =>
    intro r hr
    refine lasts_of_error (s := r) rfl hr ?_
    rintro ⟨name, hname⟩
    cases hname

theorem maintains_modifyNetlist {f : Netlist → Netlist} (h : ∀ nl, P nl → P (f nl)) :
    Maintains P (modifyNetlist f) :=
  fun r hr => lasts_of_ok rfl (h r.netlist hr)

theorem maintains_replace {query : Netlist → Except Fault Netlist}
    (h : ∀ nl nl', P nl → query nl = .ok nl' → P nl') : Maintains P (replace query) := by
  intro r hr
  refine (maintains_ask query r hr).bind fun nl s hask _ => lasts_of_ok rfl ?_
  have hquery : Ends (ask query) r (fun nl _ => query r.netlist = .ok nl) fun _ _ => True :=
    ends_ask fun _ h => h
  exact h r.netlist nl hr (hquery.of_ok hask)

/-! ### Drivers -/

theorem maintains_liveNet? (p : Pin) : Maintains P (liveNet? p) := by
  unfold liveNet?
  cases p.net with
  | none => exact maintains_pure none
  | some w => exact (maintains_ask _).bind fun n => maintains_pure _

theorem maintains_driverAt (pin : PinId) (padded : Bool) : Maintains P (driverAt pin padded) :=
  (maintains_ask _).bind fun _ => (maintains_ask _).bind fun _ => maintains_pure _

theorem lasts_soleDriver (hr : P r.netlist) {net : NetId} (hdriven : r.netlist.drivers net ≠ [])
    (id : PinId) (node : String) (padded : Bool) : Lasts P (soleDriver id node net padded) r := by
  refine (maintains_ask _ r hr).bind fun n s hask hs => ?_
  have hnet : Ends (ask (·.net net)) r (fun n s => r.netlist.nets[net]? = some n ∧ s = r)
      fun _ _ => True := ends_ask fun _ h => ⟨net_eq_ok_iff.mp h, rfl⟩
  obtain ⟨hn, rfl⟩ := hnet.of_ok hask
  rw [drivers, pinsOfNet, hn] at hdriven
  rcases hlist : n.drivers with _ | ⟨driver, _ | ⟨other, rest⟩⟩
  · exact absurd hlist hdriven
  · exact maintains_driverAt driver padded s hs
  · refine ((maintains_ask _).bind fun label => maintains_fail ?_) s hs
    intro name h
    cases h

section Lasting

variable (hP : Lasting P)
include hP

theorem maintains_tieToGround (id : PinId) (node : String) : Maintains P (tieToGround id node) := by
  refine (maintains_ask _).bind fun label => (maintains_tell _).bind fun _ => ?_
  refine (maintains_modifyReport _).bind fun _ => ?_
  exact maintains_replace fun nl nl' hnl htie => hP.tie hnl id htie

/-- The net that a pin is resolved on has a driver: it is a constant net, or it was found driven. -/
theorem maintains_resolve (id : PinId) : Maintains P (resolve id) := by
  unfold resolve
  refine (maintains_ask _).bind fun p => (maintains_ask _).bind fun n => fun r hr => ?_
  refine (maintains_liveNet? p r hr).bind fun live s hlive hs => ?_
  obtain ⟨rfl, hlive⟩ := (liveNet?_ends p).of_ok hlive
  cases live with
  | none =>
    refine (maintains_tieToGround hP id n.name s hs).bind fun _ s' _ hs' => ?_
    exact lasts_soleDriver hs' (hP.driven hs' groundNet rfl) id n.name true
  | some w =>
    have hnet : p.net = some w := by
      split at hlive
      · cases hlive
      · exact hlive.symm
    refine lasts_soleDriver hs ?_ id n.name false
    intro hnone
    change s.netlist.drivers w = [] at hnone
    by_cases hconstant : isConstantNet w
    · exact hP.driven hs w hconstant hnone
    · rw [hnet, Option.all_some] at hlive
      simp [hnone, hconstant] at hlive

theorem maintains_resolveOutput (output : Node) : Maintains P (resolveOutput output) := by
  unfold resolveOutput
  cases output.inputs with
  | nil => exact maintains_fault _
  | cons pin _ => exact maintains_resolve hP pin

/-! ### Nodes -/

theorem maintains_bindInputs (slots : List Slot) : Maintains P (bindInputs slots) := by
  induction slots with
  | nil => exact maintains_pure []
  | cons slot slots ih =>
    refine Maintains.bind ((maintains_ask _).bind fun p => maintains_pure _) fun port => ?_
    exact (maintains_resolve hP slot.pin).bind fun driver => ih.bind fun rest => maintains_pure _

omit hP in
theorem maintains_bindOutputs (slots : List Slot) : Maintains P (bindOutputs slots) := by
  induction slots with
  | nil => exact maintains_pure []
  | cons slot slots ih =>
    refine Maintains.bind ((maintains_ask _).bind fun p => maintains_pure _) fun port => ?_
    exact (maintains_ask _).bind fun name => ih.bind fun rest => maintains_pure _

theorem maintains_assemble (id : NodeId) : Maintains P (assemble id) := by
  unfold assemble
  refine (maintains_ask _).bind fun n => (maintains_require _ _).bind fun _ => ?_
  refine (maintains_require _ _).bind fun _ => ?_
  have hbind : Maintains P (do
      tell (.primitiveAssembled n.name n.kind.display)
      let inputs ← bindInputs n.inputSlots
      let outputs ← bindOutputs n.outputSlots
      return ({ node := id, name := n.name, cellType := n.kind.cellType?.getD "", inputs, outputs } :
        Primitive)) := by
    refine (maintains_tell _).bind fun _ => (maintains_bindInputs hP _).bind fun inputs => ?_
    exact (maintains_bindOutputs _).bind fun outputs => maintains_pure _
  cases n.shapeError? with
  | none => exact hbind
  | some reason => exact Maintains.bind (maintains_fail fun name h => nomatch h) fun _ => hbind

theorem maintains_instantiate (id : NodeId) (mark : UInt16) : Maintains P (instantiate id mark) := by
  refine Maintains.bind ((maintains_ask _).bind fun n => maintains_pure _) fun _ => ?_
  exact maintains_modifyNetlist fun nl hnl => hP.instantiate hnl id mark

omit hP in
theorem maintains_skip (n : Node) : Maintains P (skip n) := by
  unfold skip
  split
  · exact (maintains_tell _).bind fun _ => maintains_modifyReport _
  · exact maintains_modifyReport _

omit hP in
theorem maintains_countEmitted (c : Context) (n : Node) : Maintains P (countEmitted c n) := by
  refine Maintains.bind ?_ fun _ => maintains_modifyReport _
  unfold reference
  split
  · next model _ =>
    cases c.catalog.find? model with
    | none => exact (maintains_tell _).bind fun _ => maintains_modifyReport _
    | some declared =>
      refine maintains_get.bind fun _ => (maintains_tellAll _).bind fun _ => ?_
      exact maintains_modifyReport _
  · exact maintains_pure ()

theorem maintains_emitBlif (c : Context) (id : NodeId) : Maintains P (emitBlif c id) := by
  refine (maintains_ask _).bind fun n => ?_
  cases n.kind.isPrimitive with
  | true =>
    refine (maintains_instantiate hP id _).bind fun _ => (maintains_assemble hP id).bind fun p => ?_
    refine (maintains_demand _).bind fun text => ?_
    exact (maintains_countEmitted c n).bind fun _ => maintains_pure _
  | false => exact (maintains_skip n).bind fun _ => maintains_pure _

theorem maintains_emitCell (c : Context) (d : Design) (m : Module) (id : NodeId) :
    Maintains P (emitCell c d m id) := by
  refine (maintains_ask _).bind fun n => ?_
  cases n.kind.isPrimitive with
  | true =>
    refine (maintains_instantiate hP id _).bind fun _ => (maintains_assemble hP id).bind fun p => ?_
    refine (maintains_demand _).bind fun cell => (maintains_demand _).bind fun module => ?_
    exact (maintains_countEmitted c n).bind fun _ => maintains_pure _
  | false => exact (maintains_skip n).bind fun _ => maintains_pure _

/-! ### Circuits -/

theorem maintains_emitBlifAll (c : Context) (text : String) (ids : List NodeId) :
    Maintains P (emitBlifAll c text ids) := by
  induction ids generalizing text with
  | nil => exact maintains_pure text
  | cons id ids ih => exact (maintains_emitBlif hP c id).bind fun statement => ih _

theorem maintains_emitBuffers (text : String) (ids : List NodeId) :
    Maintains P (emitBuffers text ids) := by
  induction ids generalizing text with
  | nil => exact maintains_pure text
  | cons id ids ih =>
    exact (maintains_ask _).bind fun output => (maintains_resolveOutput hP output).bind fun _ => ih _

theorem maintains_emitCells (c : Context) (d : Design) (m : Module) (ids : List NodeId) :
    Maintains P (emitCells c d m ids) := by
  induction ids generalizing m with
  | nil => exact maintains_pure m
  | cons id ids ih => exact (maintains_emitCell hP c d m id).bind fun extended => ih _

theorem maintains_joinOutputs (m : Module) (ids : List NodeId) : Maintains P (joinOutputs m ids) := by
  induction ids generalizing m with
  | nil => exact maintains_pure m
  | cons id ids ih =>
    refine (maintains_ask _).bind fun output => (maintains_resolveOutput hP output).bind fun driver => ?_
    dsimp only
    split
    · exact (maintains_pure _).bind fun _ => ih _
    · exact (maintains_demand _).bind fun _ => ih _

omit hP

theorem maintains_names (ids : List NodeId) : Maintains P (names ids) := by
  unfold names
  induction ids with
  | nil => exact maintains_pure []
  | cons id ids ih =>
    rw [List.mapM_cons]
    refine Maintains.bind ((maintains_ask _).bind fun n => maintains_pure _) fun name => ?_
    exact ih.bind fun rest => maintains_pure _

theorem maintains_declareBlif (referenced : List String) (ds : Declarations) (models : List Model) :
    Maintains P (declareBlif referenced ds models) := by
  induction models generalizing ds with
  | nil => exact maintains_pure ds
  | cons m models ih =>
    refine (maintains_tellAll _).bind fun _ => ?_
    split
    · split
      · exact maintains_pure _
      · refine (maintains_demand _).bind fun declaration => ?_
        exact (maintains_modifyReport _).bind fun _ => ih _
    · exact ih ds

theorem maintains_declareModules (referenced : List String) (d : Design) (models : List Model) :
    Maintains P (declareModules referenced d models) := by
  induction models generalizing d with
  | nil => exact maintains_pure (d, none)
  | cons m models ih =>
    refine (maintains_tellAll _).bind fun _ => ?_
    split
    · split
      · exact maintains_pure _
      · refine (maintains_tellAll _).bind fun _ => (maintains_demand _).bind fun module => ?_
        exact (maintains_modifyReport _).bind fun _ => ih _
    · exact ih d

theorem maintains_insertModule (d : Design) (name : String) (m : Module) :
    Maintains P (insertModule d name m) := by
  unfold insertModule Design.addModule
  split
  · exact maintains_pure _
  · next e h =>
    split at h
    · cases h
      exact maintains_fail fun name h => nomatch h
    · cases h

include hP

theorem maintains_writeBlif (c : Context) : Maintains P (writeBlif c) := by
  unfold writeBlif
  refine (maintains_modifyNetlist fun nl hnl => hP.instantiateAll hnl _).bind fun _ => ?_
  refine maintains_get.bind fun s => (maintains_tell _).bind fun _ => ?_
  refine (maintains_emitBlifAll hP c _ _).bind fun body => ?_
  refine (maintains_emitBuffers hP _ _).bind fun buffers => ?_
  refine (maintains_names _).bind fun inputs => (maintains_names _).bind fun outputs => ?_
  refine Maintains.bind (maintains_get.bind fun s => maintains_declareBlif _ _ _) fun ds => ?_
  cases ds.clash with
  | none => exact maintains_pure _
  | some name => exact Maintains.bind (maintains_fail fun name h => nomatch h) fun _ => maintains_pure _

theorem maintains_buildDesign (c : Context) : Maintains P (buildDesign c) := by
  unfold buildDesign
  refine (maintains_modifyNetlist fun nl hnl => hP.instantiateAll hnl _).bind fun _ => ?_
  refine maintains_get.bind fun s => (maintains_tell _).bind fun _ => ?_
  refine (maintains_modifyReport _).bind fun _ => ?_
  refine Maintains.bind (maintains_get.bind fun s => maintains_declareModules _ _ _) fun blackboxes => ?_
  obtain ⟨d, clash⟩ := blackboxes
  have hmodule : Maintains P (do
      let m := addBoundary .input {} (← names s.netlist.topInputs)
      let m := addBoundary .output m (← names s.netlist.topOutputs)
      let m ← emitCells c d m (List.range s.netlist.nodes.size)
      let m ← joinOutputs m s.netlist.topOutputs
      let d ← insertModule d c.config.topModule m.numberPorts
      return { d with top := some c.config.topModule }) := by
    refine (maintains_names _).bind fun inputs => (maintains_names _).bind fun outputs => ?_
    refine (maintains_emitCells hP c d _ _).bind fun m => ?_
    refine (maintains_joinOutputs hP m _).bind fun m => ?_
    exact (maintains_insertModule d _ _).bind fun d => maintains_pure _
  cases clash with
  | none => exact hmodule
  | some name => exact Maintains.bind (maintains_fail fun name h => nomatch h) fun _ => hmodule

theorem maintains_write (c : Context) (w : Writer) : Maintains P (w.write c) := by
  cases w with
  | blif => exact maintains_writeBlif hP c
  | rtlil => exact (maintains_buildDesign hP c).bind fun d => maintains_demand _
  | json => exact (maintains_buildDesign hP c).bind fun d => maintains_demand _

end Lasting

end Emit

/-! ### Requests -/

inductive Request where
  | instantiate (node : NodeId) (mark : UInt16)
  | resolve (pin : PinId)
  | assemble (node : NodeId)
  | emitBlif (c : Context) (node : NodeId)
  | emitCell (c : Context) (design : Design) (module : Module) (node : NodeId)
  | buildDesign (c : Context)
  | write (c : Context) (writer : Writer)

def Request.action : Request → Emit Unit
  | instantiate node mark => Emit.instantiate node mark
  | resolve pin => do discard <| Emit.resolve pin
  | assemble node => do discard <| Emit.assemble node
  | emitBlif c node => do discard <| Emit.emitBlif c node
  | emitCell c design module node => do discard <| Emit.emitCell c design module node
  | buildDesign c => do discard <| Emit.buildDesign c
  | write c writer => do discard <| writer.write c

/-- The netlists that requests lead to, one after the other.  Each request may come in a run of its own,
and it may fail. -/
inductive Netlist.Reaches (nl : Netlist) : Netlist → Prop where
  | start : nl.Reaches nl
  | request {r : Run} (h : nl.Reaches r.netlist) (q : Request) :
      nl.Reaches (Emit.final q.action r).netlist

namespace Netlist

section Lasting

variable {P : Netlist → Prop} (hP : Lasting P)
include hP

/-- A request keeps what naming outputs and tying inputs keep. -/
theorem Lasting.request_maintains (q : Request) : Emit.Maintains P q.action := by
  have hdiscard {α : Type} {x : Emit α} (hx : Emit.Maintains P x) :
      Emit.Maintains P (do discard x) := hx.bind fun _ => Emit.maintains_pure ()
  cases q with
  | instantiate node mark => exact Emit.maintains_instantiate hP node mark
  | resolve pin => exact hdiscard (Emit.maintains_resolve hP pin)
  | assemble node => exact hdiscard (Emit.maintains_assemble hP node)
  | emitBlif c node => exact hdiscard (Emit.maintains_emitBlif hP c node)
  | emitCell c design module node => exact hdiscard (Emit.maintains_emitCell hP c design module node)
  | buildDesign c => exact hdiscard (Emit.maintains_buildDesign hP c)
  | write c writer => exact hdiscard (Emit.maintains_write hP c writer)

/-- Any number of requests keeps it. -/
theorem Lasting.of_reaches {nl nl' : Netlist} (hreaches : nl.Reaches nl') (hnl : P nl) : P nl' := by
  induction hreaches with
  | start => exact hnl
  | request _ q ih => exact (hP.request_maintains q _ ih).netlist

end Lasting

/-! ### What no request changes -/

/-- Whether a netlist is as another one but for the marks of nodes, the names and nets of pins, and the
nets themselves. -/
structure Resembles (nl nl' : Netlist) : Prop where
  nodes : ∀ k : NodeId, (nl.nodes[k]?).map (fun n => { n with mark := 0 }) =
    (nl'.nodes[k]?).map fun n => { n with mark := 0 }
  pins : ∀ id : PinId, (nl.pins[id]?).map (fun p => { p with name := none, net := none }) =
    (nl'.pins[id]?).map fun p => { p with name := none, net := none }

section Resembling

variable {nl nl' : Netlist}

theorem resembles_refl (nl : Netlist) : nl.Resembles nl := ⟨fun _ => rfl, fun _ => rfl⟩

/-- What is the same once a part is erased is the same for all that does not look at the part. -/
theorem map_eq_of_erased {α β : Type} {erase : α → α} {f : α → β} (hf : ∀ a, f (erase a) = f a)
    {x y : Option α} (h : x.map erase = y.map erase) : x.map f = y.map f := by
  have hmap := congrArg (Option.map f) h
  simpa only [Option.map_map, Function.comp_def, hf] using hmap

theorem Resembles.map_nodes (h : nl.Resembles nl') {α : Type} (f : Node → α)
    (hf : ∀ n, f { n with mark := 0 } = f n) (k : NodeId) :
    (nl.nodes[k]?).map f = (nl'.nodes[k]?).map f :=
  map_eq_of_erased hf (h.nodes k)

theorem Resembles.map_pins (h : nl.Resembles nl') {α : Type} (f : Pin → α)
    (hf : ∀ p, f { p with name := none, net := none } = f p) (id : PinId) :
    (nl.pins[id]?).map f = (nl'.pins[id]?).map f :=
  map_eq_of_erased hf (h.pins id)

theorem Resembles.pinsOfNode (h : nl.Resembles nl') : nl.pinsOfNode = nl'.pinsOfNode := by
  funext k side
  exact congrArg (Option.getD · []) (h.map_nodes (·.pins side) (fun _ => by cases side <;> rfl) k)

theorem Resembles.sizesOfNode (h : nl.Resembles nl') : nl.sizesOfNode = nl'.sizesOfNode := by
  funext k side
  exact congrArg (Option.getD · []) (h.map_nodes (·.sizes side) (fun _ => by cases side <;> rfl) k)

/-- Naming outputs and tying inputs leave the nodes and the ports as they are. -/
theorem lasting_resembles (nl' : Netlist) : Lasting fun nl => nl.Powered ∧ nl.Resembles nl' where
  driven hnl w hw := by
    rw [hnl.1.driven w hw]
    exact List.cons_ne_nil w []
  instantiate {nl} hnl id mark := by
    refine ⟨hnl.1.of_graph (graph_instantiate nl id mark), ⟨fun k => ?_, fun j => ?_⟩⟩
    · rw [← hnl.2.nodes k, getElem?_nodes_instantiate]
      split
      · rw [Option.map_map]
        rfl
      · rfl
    · rw [← hnl.2.pins j, getElem?_pins_instantiate, Option.map_map]
      rfl
  tie {nl} {nl'} hnl id htie := by
    obtain ⟨⟨p, hp, hinput⟩, hground, rfl⟩ := connectAs_eq_ok_iff.mp htie
    refine ⟨hnl.1.connect_input hground fun q hq => ?_, ⟨fun k => ?_, fun j => ?_⟩⟩
    · cases hp.symm.trans hq
      exact hinput
    · rw [nodes_connect]
      exact hnl.2.nodes k
    · rw [← hnl.2.pins j, getElem?_pins_connect]
      split
      · rw [Option.map_map]
        rfl
      · rfl

theorem Powered.resembles_of_reaches (hnl : nl.Powered) (h : nl.Reaches nl') : nl'.Resembles nl :=
  ((lasting_resembles nl).of_reaches h ⟨hnl, resembles_refl nl⟩).2

end Resembling

end Netlist

end CircuitLowering
