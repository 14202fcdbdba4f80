import CircuitLowering.Emission.Writer
import CircuitLowering.Proofs.Netlist.Constants

/-!
# Operating on a netlist

A caller builds a netlist by operations: adding nodes, nets, ports and the circuit's boundary,
connecting pins, naming pins, setting parameters, and, once it is to be written, naming the outputs
of a node and resolving an input pin.  An operation that is given a number that was never handed
out, or a pin of the wrong direction, does not lead to a netlist.  All others keep the netlist
cross-referenced, so every netlist that a caller can reach is.

Resolving is the one operation that can change the netlist and then stop at an error of the circuit.
What it changed stays changed, and the caller can go on from there.
-/

namespace CircuitLowering

inductive Operation where
  | addNode (name : String) (kind : NodeKind)
  | addNet (name : Option String)
  | addPort (node : NodeId) (mapping : String) (size : Nat) (direction : Direction)
  | connectSink (net : NetId) (pin : PinId)
  | connectDriver (net : NetId) (pin : PinId)
  | addTopInput (name : String)
  | addTopOutput (name : String) (net : NetId)
  | namePin (pin : PinId) (name : Option String)
  | setParam (node : NodeId) (name : String) (value : Param)
  | instantiate (node : NodeId) (mark : UInt16)
  | resolve (pin : PinId)

namespace Emit

def replace (query : Netlist → Except Fault Netlist) : Emit Unit := do
  let netlist ← ask query
  modifyNetlist fun _ => netlist

/-- Runs an action on a netlist; the answer is the netlist that it leaves, also where it stops at
an error of the circuit. -/
def netlistAfter {α : Type} (x : Emit α) (nl : Netlist) : Except Failure Netlist :=
  match x { netlist := nl } with
  | .ok _ r => .ok r.netlist
  | .error (.error _) r => .ok r.netlist
  | .error failure _ => .error failure

end Emit

namespace Operation

open Emit

def action : Operation → Emit Unit
  | addNode name kind => modifyNetlist fun nl => (nl.addNode name kind).2
  | addNet name => modifyNetlist fun nl => (nl.addNet name).2
  | addPort node mapping size direction => replace fun nl => do
      return (← nl.addPort node mapping size direction).2
  | connectSink net pin => replace fun nl => nl.connectSink net pin
  | connectDriver net pin => replace fun nl => nl.connectDriver net pin
  | addTopInput name => modifyNetlist fun nl => (nl.addTopInput name).2
  | addTopOutput name net => replace fun nl => do return (← nl.addTopOutput name net).2
  | namePin pin name => replace fun nl => do
      discard <| nl.pin pin
      return nl.setPinName pin name
  | setParam node name value => replace fun nl => do
      discard <| nl.node node
      return nl.setParam node name value
  | instantiate node mark => Emit.instantiate node mark
  | resolve pin => do discard <| Emit.resolve pin

def apply (op : Operation) (nl : Netlist) : Except Failure Netlist := netlistAfter op.action nl

def run (nl : Netlist) (ops : List Operation) : Except Failure Netlist :=
  ops.foldlM (fun nl op => op.apply nl) nl

end Operation

/-! ### What elementary changes keep -/

namespace Netlist

/-- Whether each elementary change of a netlist keeps `P`.  Pins are moved only to nets that exist,
so `P` has to say that there is a ground net for the pins that are tied. -/
structure Kept (P : Netlist → Prop) : Prop where
  ground : ∀ {nl : Netlist}, P nl → groundNet < nl.nets.size
  graph : ∀ {nl nl' : Netlist}, P nl → nl'.graph = nl.graph → P nl'
  boundary : ∀ {nl : Netlist}, P nl → ∀ topInputs topOutputs : List NodeId,
    P { nl with topInputs, topOutputs }
  addNode : ∀ {nl : Netlist}, P nl → ∀ name kind, P (nl.addNode name kind).2
  addNet : ∀ {nl : Netlist}, P nl → ∀ name, P (nl.addNet name).2
  attachPort : ∀ {nl : Netlist}, P nl → ∀ node mapping size direction, node < nl.nodes.size →
    Capacity.fits Capacity.numberBytes size = true →
      P (nl.attachPort node mapping size direction).2
  connect : ∀ {nl : Netlist}, P nl → ∀ {net : NetId}, net < nl.nets.size → ∀ pin,
    P (nl.connect net pin)

theorem kept_wired : Kept Wired where
  ground hnl := Nat.lt_of_lt_of_le (by decide) hnl.constants
  graph hnl h := hnl.of_graph h
  boundary hnl topInputs topOutputs := ⟨hnl.withBoundary topInputs topOutputs, hnl.constants⟩
  addNode hnl name kind := ⟨hnl.toCrossReferenced.addNode _ name kind, hnl.constants⟩
  addNet hnl name := by
    refine ⟨hnl.toCrossReferenced.addNet _ name, ?_⟩
    simpa [Netlist.addNet] using Nat.le_succ_of_le hnl.constants
  attachPort hnl node mapping size direction hnode _ :=
    ⟨hnl.toCrossReferenced.attachPort _ node mapping size direction hnode, hnl.constants⟩
  connect hnl _ hnet pin := hnl.connect hnet pin

section Kept

variable {P : Netlist → Prop} (hP : Kept P) {nl : Netlist}
include hP

theorem Kept.addSource (hnl : P nl) (name : String) (kind : NodeKind) :
    P (nl.addSource name kind).2.2 := by
  have hnode := hP.addNet (hP.addNode hnl name kind) (some name)
  have hport := hP.attachPort hnode nl.nodes.size name 1 .output
    (by simp [Netlist.addNode, Netlist.addNet]) (by decide)
  simp only [Netlist.addSource, Netlist.addNode, Netlist.addNet, Netlist.attachPort, List.range'_one,
    List.foldl_cons, List.foldl_nil] at hport ⊢
  refine hP.connect (hP.graph hport (graph_setPinName _ _ _)) ?_ _
  simp [setPinName]

theorem Kept.addTopInput (hnl : P nl) (name : String) : P (nl.addTopInput name).2 :=
  hP.boundary (hP.addSource hnl name .input) _ _

theorem Kept.attachTopOutput (hnl : P nl) (name : String) {net : NetId}
    (hnet : net < nl.nets.size) : P (nl.attachTopOutput name net).2 := by
  have hnode := hP.addNode hnl name .output
  have hport := hP.attachPort hnode nl.nodes.size name 1 .input
    (by simp [Netlist.addNode]) (by decide)
  exact hP.boundary (hP.connect hport hnet nl.pins.size) _ _

theorem Kept.tieAll (hnl : P nl) (ids : List PinId) : P (nl.tieAll ids) := by
  induction ids generalizing nl with
  | nil => exact hnl
  | cons id ids ih =>
    apply ih
    unfold tie
    split
    · exact hP.connect hnl (hP.ground hnl) id
    · exact hnl

end Kept

end Netlist

/-! ### One operation -/

namespace Emit

variable {r : Run} {P : Netlist → Prop}

theorem replace_ends {query : Netlist → Except Fault Netlist}
    (h : ∀ nl, query r.netlist = .ok nl → P nl) :
    Ends (replace query) r (fun _ r' => P r'.netlist) fun _ r' => P r'.netlist :=
  Ends.bind (ends_ask fun nl hnl => ends_modifyNetlist (h nl hnl))

theorem instantiate_ends (id : NodeId) (mark : UInt16) :
    Ends (instantiate id mark) r
      (fun _ r' => r' = { r with netlist := r.netlist.instantiate id mark }) fun _ _ => False :=
  Ends.bind (Ends.bind (ends_ask fun _ _ => ends_pure (ends_modifyNetlist rfl)))

theorem netlistAfter_of_ends {α : Type} {x : Emit α} {nl nl' : Netlist}
    (hx : Ends x { netlist := nl } (fun _ r' => P r'.netlist) fun _ r' => P r'.netlist)
    (h : netlistAfter x nl = .ok nl') : P nl' := by
  unfold Ends at hx
  unfold netlistAfter at h
  split at h
  · next hrun =>
    rw [hrun] at hx
    cases h
    exact hx
  · next hrun =>
    rw [hrun] at hx
    cases h
    exact hx
  · cases h

end Emit

namespace Operation

open Emit Netlist

section Kept

variable {P : Netlist → Prop} (hP : Kept P)
include hP

/-- Each operation keeps what elementary changes keep. -/
theorem action_ends {r : Run} (hr : P r.netlist) (op : Operation) :
    Ends op.action r (fun _ r' => P r'.netlist) fun _ r' => P r'.netlist := by
  cases op with
  | addNode name kind =>
    rw [action]
    exact ends_modifyNetlist (hP.addNode hr name kind)
  | addNet name =>
    rw [action]
    exact ends_modifyNetlist (hP.addNet hr name)
  | addPort node mapping size direction =>
    apply replace_ends
    intro nl hnl
    obtain ⟨port, hport, hnl⟩ := bind_eq_ok_iff.mp hnl
    cases hnl
    unfold Netlist.addPort at hport
    split at hport
    · next hnode =>
      obtain ⟨_, hfits, hport⟩ := bind_eq_ok_iff.mp hport
      cases hport
      exact hP.attachPort hr node mapping size direction hnode (Capacity.ensure_eq_ok_iff.mp hfits)
    · cases hport
  | connectSink net pin =>
    apply replace_ends
    intro nl hnl
    obtain ⟨-, hnet, rfl⟩ := connectAs_eq_ok_iff.mp hnl
    exact hP.connect hr hnet pin
  | connectDriver net pin =>
    apply replace_ends
    intro nl hnl
    obtain ⟨-, hnet, rfl⟩ := connectAs_eq_ok_iff.mp hnl
    exact hP.connect hr hnet pin
  | addTopInput name =>
    rw [action]
    exact ends_modifyNetlist (hP.addTopInput hr name)
  | addTopOutput name net =>
    apply replace_ends
    intro nl hnl
    obtain ⟨output, houtput, hnl⟩ := bind_eq_ok_iff.mp hnl
    cases hnl
    unfold Netlist.addTopOutput at houtput
    split at houtput
    · next hnet =>
      cases houtput
      exact hP.attachTopOutput hr name hnet
    · cases houtput
  | namePin pin name =>
    apply replace_ends
    intro nl hnl
    obtain ⟨_, -, hnl⟩ := bind_eq_ok_iff.mp hnl
    cases hnl
    exact hP.graph hr (graph_setPinName r.netlist pin name)
  | setParam node name value =>
    apply replace_ends
    intro nl hnl
    obtain ⟨_, -, hnl⟩ := bind_eq_ok_iff.mp hnl
    cases hnl
    exact hP.graph hr (graph_setParam r.netlist node name value)
  | instantiate node mark =>
    refine (instantiate_ends node mark).imp ?_ fun _ _ h => h.elim
    intro _ _ hend
    subst hend
    exact hP.graph hr (graph_instantiate r.netlist node mark)
  | resolve pin =>
    refine Ends.bind ((resolve_ends pin).imp ?_ ?_)
    · intro d r' hend
      rcases hend with ⟨-, hsettles, -⟩
      exact ends_pure (hsettles.netlist ▸ hP.tieAll hr [pin])
    · intro e r' hend
      rcases hend with ⟨-, hsettles, -⟩
      exact hsettles.netlist ▸ hP.tieAll hr [pin]

/-! ### Any number of operations -/

theorem apply_keeps {nl nl' : Netlist} (hnl : P nl) {op : Operation}
    (h : op.apply nl = .ok nl') : P nl' :=
  netlistAfter_of_ends (action_ends hP hnl op) h

/-- What elementary changes keep, any number of operations keep. -/
theorem run_keeps {nl nl' : Netlist} (hnl : P nl) {ops : List Operation}
    (h : run nl ops = .ok nl') : P nl' :=
  foldlM_invariant P (fun _ _ _ _ hop hnl => apply_keeps hP hnl hop) hnl h

end Kept

theorem run_wired {nl nl' : Netlist} (hnl : nl.Wired) {ops : List Operation}
    (h : run nl ops = .ok nl') : nl'.Wired :=
  run_keeps kept_wired hnl h

/-- Whatever operations lead from the initial netlist to another one, in the netlist that they lead
to every reference agrees with the one in the other direction. -/
theorem crossReferenced_of_run {ops : List Operation} {nl : Netlist}
    (h : run initial ops = .ok nl) : nl.CrossReferenced :=
  (run_wired wired_initial h).toCrossReferenced

/-- A lookup table of two inputs, one of which moves from net to net and back while the other is
left for the resolving to tie. -/
def lutOperations : List Operation := [
  addTopInput "a",
  addNode "u" (.lut 2 [.zero, .one]),
  addPort 4 "I" 2 .input,
  addPort 4 "O" 1 .output,
  addNet none,
  connectDriver 4 6,
  connectSink 4 4,
  connectSink 3 4,
  connectSink 3 4,
  addTopOutput "y" 4,
  namePin 6 (some "n"),
  setParam 4 "K" (.text "v"),
  instantiate 4 1,
  resolve 5,
  resolve 5]

theorem crossReferenced_lutOperations :
    ∃ nl, run initial lutOperations = .ok nl ∧ nl.CrossReferenced := by
  have hrun := eq_ok_getD (x := run initial lutOperations) (by decide +kernel) initial
  exact ⟨_, hrun, crossReferenced_of_run hrun⟩

end Operation

end CircuitLowering
