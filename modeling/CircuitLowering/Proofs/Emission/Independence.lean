import CircuitLowering.Proofs.Emission.Aftermath
import CircuitLowering.Proofs.Emission.Nodes

/-!
# Nodes in any order

Once the outputs are named, writing a node changes nothing that another node shows.  All that it does
to the netlist is to tie its own undriven inputs, and these are the inputs of no other node.  So nodes
that are written one after the other, also past failures, come each to what they would have come to
alone (`Emit.emitEach_eq_map`), in whatever order that is done.
-/

namespace CircuitLowering

open Netlist

structure Outcome where
  answer : Except Failure (Option String)
  diagnostics : List Diagnostic

/-! ### Pins of other nodes -/

/-- A pin stands among the pins of one node alone. -/
theorem Netlist.CrossReferenced.node_of_mem_pinsOfNode {nl : Netlist} (hnl : nl.CrossReferenced)
    {id : NodeId} {d : Direction} {pin : PinId} (h : pin ∈ nl.pinsOfNode id d) :
    ∃ p, nl.pins[pin]? = some p ∧ p.node = id := by
  unfold pinsOfNode at h
  cases hn : nl.nodes[id]? with
  | none =>
    rw [hn] at h
    exact absurd h List.not_mem_nil
  | some n =>
    rw [hn, Option.map_some, Option.getD_some] at h
    obtain ⟨p, hp, hnode, -⟩ := hnl.pin_of_mem d hn h
    exact ⟨p, hp, hnode⟩

/-- Whether the input pins of a node lack a driver in the one run just where they do in the other. -/
def Run.SameUndriven (r r' : Run) (id : NodeId) : Prop :=
  ∀ pin ∈ r.netlist.pinsOfNode id .input, r'.netlist.isUndriven pin = r.netlist.isUndriven pin

theorem Run.Alike.refl {mark : UInt16} {r : Run} (hwired : r.netlist.Wired)
    (hprepared : r.netlist.Prepared mark) : r.Alike mark r :=
  ⟨rfl, hwired, hwired, hprepared, hprepared⟩

theorem Run.Alike.follows {mark : UInt16} {r s t : Run} {ids : List PinId} (h : r.Alike mark s)
    (ht : s.Follows ids t) : r.Alike mark t where
  settled := by rw [ht.netlist, settled_tieAll, h.settled]
  wired := h.wired
  wired' := ht.netlist ▸ h.wired'.tieAll ids
  prepared := h.prepared
  prepared' := ht.netlist ▸ h.prepared'.tieAll ids

namespace Emit

variable {r s : Run}

def outcome (c : Context) (id : NodeId) (r : Run) : Outcome where
  answer := answer (emitBlif c id) r
  diagnostics := (final (emitBlif c id) r).report.diagnostics.drop r.report.diagnostics.length

/-- What writing nodes one after the other comes to, node by node, going on past failures. -/
def emitEach (c : Context) (r : Run) : List NodeId → List (NodeId × Outcome)
  | [] => []
  | id :: rest => (id, outcome c id r) :: emitEach c (final (emitBlif c id) r) rest

/-- A node comes to the same in two runs that stand alike, if the same inputs of it lack a driver. -/
theorem outcome_eq (c : Context) {id : NodeId} (halike : r.Alike c.config.traversalMark s)
    (hundriven : r.SameUndriven s id) : outcome c id s = outcome c id r := by
  obtain ⟨hanswer, ids, hids, hr, hs⟩ := Matches.answer_eq (emitBlif_agrees c id halike)
  have hrepairs : s.netlist.repairs ids = r.netlist.repairs ids := by
    have hdiagnostic : s.netlist.diagnostic = r.netlist.diagnostic :=
      funext fun pin => diagnostic_of_settled halike.settled pin
    have hrepaired : s.netlist.repaired ids = r.netlist.repaired ids := by
      refine List.filter_congr fun pin hpin => ?_
      exact hundriven pin (hids pin (List.mem_eraseDups.mp hpin))
    rw [repairs, hdiagnostic, hrepaired, repairs]
  rw [outcome, outcome, hanswer, hr.diagnostics, hs.diagnostics, hrepairs]
  simp only [List.drop_left]

/-- Writing a node leaves the inputs of the others as they are. -/
theorem sameUndriven_of_emitBlif (c : Context) {id id' : NodeId}
    (halike : r.Alike c.config.traversalMark s) (hne : id' ≠ id) (hundriven : r.SameUndriven s id') :
    r.SameUndriven (final (emitBlif c id) s) id' := by
  obtain ⟨-, ids, hids, -, hfollows⟩ := Matches.answer_eq (emitBlif_agrees c id halike)
  intro pin hpin
  have hother : pin ∉ ids := by
    intro hmem
    obtain ⟨p, hp, hnode⟩ := halike.wired.node_of_mem_pinsOfNode (hids pin hmem)
    obtain ⟨p', hp', hnode'⟩ := halike.wired.node_of_mem_pinsOfNode hpin
    cases hp.symm.trans hp'
    exact hne (hnode'.symm.trans hnode)
  rw [hfollows.netlist, isUndriven_tieAll, hundriven pin hpin]
  simp [hother]

/-- Each of several nodes comes to what it comes to alone. -/
theorem emitEach_eq_map (c : Context) {ids : List NodeId} (hids : ids.Nodup)
    (halike : r.Alike c.config.traversalMark s) (hundriven : ∀ id ∈ ids, r.SameUndriven s id) :
    emitEach c s ids = ids.map fun id => (id, outcome c id r) := by
  induction ids generalizing s with
  | nil => rfl
  | cons id ids ih =>
    obtain ⟨hid, hids⟩ := List.nodup_cons.mp hids
    have hrest : ∀ id' ∈ ids, id' ≠ id ∧ r.SameUndriven s id' := by
      intro id' hid'
      exact ⟨fun h => hid (h ▸ hid'), hundriven id' (List.mem_cons_of_mem _ hid')⟩
    rw [emitEach, List.map_cons, outcome_eq c halike (hundriven id List.mem_cons_self)]
    refine congrArg _ (ih hids ?_ ?_)
    · obtain ⟨-, ids', -, -, hfollows⟩ := Matches.answer_eq (emitBlif_agrees c id halike)
      exact halike.follows hfollows
    · intro id' hid'
      obtain ⟨hne, hsame⟩ := hrest id' hid'
      exact sameUndriven_of_emitBlif c halike hne hsame

/-- Once the outputs are named, nodes can be written in any order: in both orders each comes to the
statement or failure, and to the diagnostics, that it comes to alone.  A primitive with pins in its
first ports, whose table fits memory, comes to a statement or to an error of the circuit. -/
theorem emitEach_order_free (c : Context) {r : Run} (hnl : r.netlist.Wired) {ids ids' : List NodeId}
    (hids : ids.Nodup) (hperm : ids.Perm ids') :
    let start := r.prepare c.config.traversalMark
    let alone := fun id => (id, outcome c id start)
    emitEach c start ids = ids.map alone ∧ emitEach c start ids' = ids'.map alone ∧
      ∀ id n, start.netlist.nodes[id]? = some n → n.kind.isPrimitive → 0 < n.firstInputSize →
        0 < n.firstOutputSize → n.TableFits →
        (∃ text, (outcome c id start).answer = .ok (some text)) ∨
          ∃ e, (outcome c id start).answer = .error (.error e) := by
  intro start alone
  have hwired : start.netlist.Wired := hnl.of_graph (graph_instantiateAll _ _)
  have hprepared : start.netlist.Prepared c.config.traversalMark := hnl.prepared _
  have halike := Run.Alike.refl hwired hprepared
  refine ⟨?_, ?_, ?_⟩
  · exact emitEach_eq_map c hids halike fun _ _ _ _ => rfl
  · exact emitEach_eq_map c (hperm.nodup_iff.mp hids) halike fun _ _ _ _ => rfl
  · intro id n hn hkind hinput houtput hfits
    exact emitBlif_returns c hwired hprepared hn hkind hinput houtput hfits

/-- Three lookup tables that read one net without driver; the second has a pin too few. -/
def sharedOperations : List Operation := [
  .addNet none,
  .addNode "u" (.lut 1 [.zero, .one]),
  .addPort 3 "I" 1 .input,
  .addPort 3 "O" 1 .output,
  .addNode "v" (.lut 2 [.zero, .one]),
  .addPort 4 "I" 1 .input,
  .addPort 4 "O" 1 .output,
  .addNode "w" (.lut 1 [.one, .zero]),
  .addPort 5 "I" 1 .input,
  .addPort 5 "O" 1 .output,
  .connectSink 3 3,
  .connectSink 3 5,
  .connectSink 3 7]

def sharedCircuit : Netlist := (Operation.run initial sharedOperations).toOption.getD initial

theorem emitEach_order_free_sharedCircuit :
    let start := Run.prepare { netlist := sharedCircuit } 1
    sharedCircuit.Wired ∧
      ∃ u v w : Outcome, emitEach {} start [3, 4, 5] = [(3, u), (4, v), (5, w)] ∧
        emitEach {} start [5, 4, 3] = [(5, w), (4, v), (3, u)] := by
  intro start
  have hrun := eq_ok_getD (x := Operation.run initial sharedOperations) (by decide +kernel) initial
  have hnl : sharedCircuit.Wired := Operation.run_wired wired_initial hrun
  have hstart : (Run.netlist { netlist := sharedCircuit }).Wired := by
    dsimp only
    exact hnl
  have hids : [3, 4, 5].Nodup := by decide
  have hperm : [3, 4, 5].Perm [5, 4, 3] := by decide
  have horders := emitEach_order_free {} hstart hids hperm
  exact ⟨hnl, outcome {} 3 start, outcome {} 4 start, outcome {} 5 start, horders.1, horders.2.1⟩

end Emit

end CircuitLowering
