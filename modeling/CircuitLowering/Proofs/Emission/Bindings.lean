import CircuitLowering.Proofs.Design.Cells
import CircuitLowering.Proofs.Emission.Assembly
import CircuitLowering.Proofs.Netlist.Ports

/-!
# What a primitive binds

An assembled primitive binds each input pin to the bit that the pin reads and each output pin to the
bit zero of the wire of its name.  Both are functions of the netlist before, since assembling changes
the netlist only by ties, which change neither the names under which pins are bound nor the bits.
-/

namespace CircuitLowering

namespace Netlist

def readBit (nl : Netlist) (id : PinId) : SignalBit :=
  match nl.reading id with
  | .ok d => d.bit
  | .error _ => .const .unknown

/-- The bit that a pin is bound to: an input reads it, and an output drives it. -/
def boundBit (nl : Netlist) : Direction → PinId → SignalBit
  | .input, id => nl.readBit id
  | .output, id => .wire (nl.label id) 0

def bindingName (nl : Netlist) (slot : Slot) : String :=
  slot.bindingName ((nl.mapping? slot.pin).getD "")

section Ties

variable (nl : Netlist) (id : PinId)

theorem readBit_tie (j : PinId) : (nl.tie id).readBit j = nl.readBit j := by
  unfold readBit reading
  simp only [drivers_tie, netRead_tie, driverAt_tie]
  rcases nl.drivers (nl.netRead j) with _ | ⟨driver, _ | ⟨other, rest⟩⟩ <;> rfl

theorem label_tie (j : PinId) : (nl.tie id).label j = nl.label j := by
  rw [label, label, pinLabel_tie]

theorem bindingName_tie (slot : Slot) : (nl.tie id).bindingName slot = nl.bindingName slot := by
  have hmapping : (nl.tie id).mapping? slot.pin = nl.mapping? slot.pin := by
    unfold mapping?
    rcases nl.pins_tie_cases id slot.pin with h | ⟨p, hp, h⟩
    · rw [h]
    · rw [h, hp]
      rfl
  rw [bindingName, bindingName, hmapping]

end Ties

end Netlist

namespace Emit

open Netlist

variable {r : Run}

theorem bindingName_ends (slot : Slot) :
    Ends (bindingName slot) r (fun name r' => name = r.netlist.bindingName slot ∧ r' = r)
      fun _ _ => False := by
  refine Ends.bind (ends_ask fun p hp => ends_pure ⟨?_, rfl⟩)
  rw [Netlist.bindingName, mapping?, pin_eq_ok_iff.mp hp]
  rfl

/-- Inputs are bound, under their names, to the bits that they read. -/
theorem bindInputs_ends (slots : List Slot) :
    Ends (bindInputs slots) r
      (fun bs r' => bs.map (fun b => (b.port, b.driver.bit)) =
          slots.map (fun slot => (r.netlist.bindingName slot, r.netlist.readBit slot.pin)) ∧
        r'.netlist = r.netlist.tieAll (slots.map (·.pin)))
      fun _ _ => True := by
  induction slots generalizing r with
  | nil => exact ends_pure ⟨rfl, rfl⟩
  | cons slot slots ih =>
    refine Ends.bind ((bindingName_ends slot).imp ?_ fun _ _ h => h.elim)
    intro port r₀ hend
    rcases hend with ⟨rfl, rfl⟩
    refine Ends.bind ((resolve_ends slot.pin).imp ?_ fun _ _ _ => trivial)
    intro d r₁ hend
    rcases hend with ⟨hreading, hsettles, -⟩
    refine Ends.bind ((ih (r := r₁)).imp ?_ fun _ _ _ => trivial)
    intro bs r₂ hend
    rcases hend with ⟨hbs, hnetlist⟩
    have htie : r₁.netlist = r₀.netlist.tie slot.pin := hsettles.netlist
    refine ends_pure ⟨?_, ?_⟩
    · have hbit : d.bit = r₀.netlist.readBit slot.pin := by rw [readBit, hreading]
      rw [List.map_cons, List.map_cons, hbs, hbit]
      simp only [htie, bindingName_tie, readBit_tie]
    · rw [hnetlist, htie]
      rfl

theorem bindOutputs_ends (slots : List Slot) :
    Ends (bindOutputs slots) r
      (fun bs r' => bs.map (fun b => (b.port, b.name)) =
          slots.map (fun slot => (r.netlist.bindingName slot, r.netlist.label slot.pin)) ∧ r' = r)
      fun _ _ => True := by
  induction slots with
  | nil => exact ends_pure ⟨rfl, rfl⟩
  | cons slot slots ih =>
    refine Ends.bind ((bindingName_ends slot).imp ?_ fun _ _ h => h.elim)
    intro port r₀ hend
    rcases hend with ⟨rfl, rfl⟩
    refine Ends.bind (ends_ask ?_)
    intro name hname
    refine Ends.bind (ih.imp ?_ fun _ _ _ => trivial)
    intro bs r₁ hend
    rcases hend with ⟨hbs, rfl⟩
    refine ends_pure ⟨?_, rfl⟩
    rw [List.map_cons, List.map_cons, hbs, label, hname]
    rfl

/-- The ports of a primitive are bound by the pins of its node, in the order of their slots. -/
theorem assemble_ends {id : NodeId} {n : Node} (hn : r.netlist.nodes[id]? = some n) :
    Ends (assemble id) r
      (fun p _ => p.cellType = n.kind.cellType?.getD "" ∧
        p.inputs.map (fun b => (b.port, b.driver.bit)) =
          n.inputSlots.map (fun slot => (r.netlist.bindingName slot, r.netlist.readBit slot.pin)) ∧
        p.outputs.map (fun b => (b.port, b.name)) =
          n.outputSlots.map (fun slot => (r.netlist.bindingName slot, r.netlist.label slot.pin)))
      fun _ _ => True := by
  unfold assemble
  refine Ends.bind (ends_ask ?_)
  intro n' hn'
  rw [node_eq_ok_iff, hn, Option.some.injEq] at hn'
  subst hn'
  refine Ends.bind (ends_require fun _ => Ends.bind (ends_require fun _ => ?_))
  cases n.shapeError? with
  | some reason => exact Ends.bind (ends_fail trivial)
  | none =>
    refine Ends.bind (ends_tell ?_)
    refine Ends.bind ((bindInputs_ends n.inputSlots).imp ?_ fun _ _ _ => trivial)
    intro inputs r₁ hend
    rcases hend with ⟨hinputs, hnetlist⟩
    refine Ends.bind ((bindOutputs_ends n.outputSlots).imp ?_ fun _ _ _ => trivial)
    intro outputs r₂ hend
    rcases hend with ⟨houtputs, rfl⟩
    refine ends_pure ⟨rfl, hinputs, ?_⟩
    rw [houtputs, hnetlist]
    apply List.map_congr_left
    intro slot _
    have hname := r.netlist.tieAll_keeps (n.inputSlots.map (·.pin)) (·.bindingName slot)
      fun nl id => nl.bindingName_tie id slot
    have hlabel := r.netlist.tieAll_keeps (n.inputSlots.map (·.pin)) (·.label slot.pin)
      fun nl id => nl.label_tie id slot.pin
    exact Prod.ext hname hlabel

end Emit

end CircuitLowering
