import CircuitLowering.Proofs.Emission.Writers
import CircuitLowering.Proofs.Netlist.Operations

/-!
# The circuit after it was written

A writer repairs the netlist while it reads it.  `Run.Repairs` says what is left when it is done, in
terms of the netlist before: which pins were moved, what was reported of them and what the pins that
were read have become.  Both writers leave a cross-referenced netlist so.
-/

namespace CircuitLowering

open Netlist

/-- How `r'` stands after the circuit of `r` was written. -/
structure Run.Repairs (r r' : Run) : Prop where
  /-- Each pin that was read has a net, and the net one driver. -/
  driven : ∀ id ∈ r.netlist.readPins, ∃ w driver,
    r'.netlist.netOf? id = some w ∧ r'.netlist.drivers w = [driver]
  /-- One diagnostic was added for each pin that was read and undriven before, in the order in which
  the pins were read first. -/
  reported : r'.report.diagnostics = r.report.diagnostics ++
    (r.netlist.readPins.eraseDups.filter r.netlist.isUndriven).map r.netlist.diagnostic
  /-- The same pins were moved to ground, and no other pin was moved. -/
  moved : ∀ id, r'.netlist.netOf? id =
    if id ∈ r.netlist.readPins ∧ r.netlist.isUndriven id then some groundNet
    else r.netlist.netOf? id
  /-- No net lost or gained a driver. -/
  drivers : ∀ w, r'.netlist.drivers w = r.netlist.drivers w

/-- A run that settles all pins that are read, and finds no error in them, repairs the circuit. -/
theorem Run.repairs_of_settles {r r' : Run} {mark : UInt16} (hnl : r.netlist.CrossReferenced)
    (herror : (r.prepare mark).netlist.circuitError? = none)
    (h : (r.prepare mark).Settles (r.prepare mark).netlist.readPins r') : r.Repairs r' := by
  have hgraph : (r.prepare mark).netlist.graph = r.netlist.graph :=
    r.netlist.graph_instantiateAll mark
  have hnetlist := h.netlist
  have hdiagnostics := h.diagnostics
  have hpins := readPins_of_graph hgraph
  rw [hpins] at hnetlist hdiagnostics
  have hmoved (id : PinId) : r'.netlist.netOf? id =
      if id ∈ r.netlist.readPins ∧ r.netlist.isUndriven id then some groundNet
      else r.netlist.netOf? id := by
    rw [hnetlist, netOf?_tieAll, netOf?_of_graph hgraph]
    simp only [repaired, List.mem_filter, List.mem_eraseDups, isUndriven_of_graph hgraph]
  have hdrivers (w : NetId) : r'.netlist.drivers w = r.netlist.drivers w := by
    rw [hnetlist, drivers_tieAll, drivers_of_graph hgraph]
  refine ⟨?_, ?_, hmoved, hdrivers⟩
  · intro id hid
    have hread := (circuitError?_eq_none_iff.mp herror).2 id (hpins ▸ hid)
    rw [readError?_eq_none_iff, drivers_of_graph hgraph, List.length_eq_one_iff] at hread
    obtain ⟨driver, hdriver⟩ := hread
    refine ⟨(r.prepare mark).netlist.netRead id, driver, ?_, (hdrivers _).trans hdriver⟩
    rw [hmoved, netRead_of_graph hgraph]
    by_cases hundriven : r.netlist.isUndriven id
    · rw [if_pos ⟨hid, hundriven⟩, netRead, if_pos hundriven]
    · obtain ⟨p, hp, hinput⟩ := hnl.pin_of_mem_readPins hid
      obtain ⟨w, hw, hread, -⟩ := netOf?_of_not_undriven hp hinput hundriven
      rw [if_neg fun h => hundriven h.2, hw, hread]
  · rw [hdiagnostics, repairs, repaired]
    have hundriven : (r.prepare mark).netlist.isUndriven = r.netlist.isUndriven :=
      funext fun id => isUndriven_of_graph hgraph id
    rw [hundriven]
    refine congrArg _ (List.map_congr_left ?_)
    intro id hid
    obtain ⟨hid, -⟩ := List.mem_filter.mp hid
    obtain ⟨p, hp, hinput⟩ := hnl.pin_of_mem_readPins (List.mem_eraseDups.mp hid)
    exact hnl.diagnostic_instantiateAll hp hinput mark

/-- A writer that writes the circuit repairs it, whichever of the two it is and whatever the models
and settings are. -/
theorem repairs_of_written (c : Context) {r : Run} (hnl : r.netlist.CrossReferenced) :
    (∀ text r', Emit.writeBlif c r = .ok text r' → r.Repairs r') ∧
      ∀ d r', Emit.buildDesign c r = .ok d r' → r.Repairs r' := by
  constructor
  · intro text r' h
    obtain ⟨hnone, hsettles, -⟩ := (Emit.writeBlif_writes c hnl).of_ok h
    exact Run.repairs_of_settles hnl (Option.or_eq_none_iff.mp hnone).1 hsettles
  · intro d r' h
    obtain ⟨hnone, hsettles, -⟩ := (Emit.buildDesign_writes c hnl).of_ok h
    obtain ⟨-, hnone⟩ := Option.or_eq_none_iff.mp hnone
    exact Run.repairs_of_settles hnl (Option.or_eq_none_iff.mp hnone).1 hsettles

/-- A lookup table whose first input is driven, whose second has a net without driver and whose third
has none, and an output of the circuit that shares the net of the second. -/
def openOperations : List Operation := [
  .addTopInput "a",
  .addNode "u" (.lut 3 [.zero, .one]),
  .addPort 4 "I" 3 .input,
  .addPort 4 "O" 1 .output,
  .addNet none,
  .addNet none,
  .connectSink 3 4,
  .connectSink 4 5,
  .connectDriver 5 7,
  .addTopOutput "y" 5,
  .addTopOutput "z" 4]

def openCircuit : Netlist := (Operation.run initial openOperations).toOption.getD initial

theorem crossReferenced_openCircuit : openCircuit.CrossReferenced := by
  have hrun := eq_ok_getD (x := Operation.run initial openOperations) (by decide +kernel) initial
  exact (Operation.run_wired wired_initial hrun).toCrossReferenced

theorem repairs_openCircuit :
    openCircuit.CrossReferenced ∧
      (∃ text r', Emit.writeBlif {} { netlist := openCircuit } = .ok text r' ∧
        Run.Repairs { netlist := openCircuit } r') ∧
      ∃ d r', Emit.buildDesign {} { netlist := openCircuit } = .ok d r' ∧
        Run.Repairs { netlist := openCircuit } r' := by
  have hnl : (Run.netlist { netlist := openCircuit }).CrossReferenced := by
    dsimp only
    exact crossReferenced_openCircuit
  have hrepairs := repairs_of_written {} hnl
  refine ⟨crossReferenced_openCircuit, ?_, ?_⟩
  · have hwritten : Emit.succeeds (Emit.writeBlif {}) { netlist := openCircuit } = true := by
      decide +kernel
    obtain ⟨text, r', h⟩ := Emit.succeeds_iff.mp hwritten
    exact ⟨text, r', h, hrepairs.1 text r' h⟩
  · have hbuilt : Emit.succeeds (Emit.buildDesign {}) { netlist := openCircuit } = true := by
      decide +kernel
    obtain ⟨d, r', h⟩ := Emit.succeeds_iff.mp hbuilt
    exact ⟨d, r', h, hrepairs.2 d r' h⟩

end CircuitLowering
