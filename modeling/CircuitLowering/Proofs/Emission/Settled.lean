import CircuitLowering.Proofs.Emission.Bindings

/-!
# Netlists that read alike

Writing a circuit moves undriven pins to ground, and nothing that is written tells a pin that was
moved from one that still waits for it.  `Netlist.settled` is the netlist with all of them moved and
without the lists of readers.  Ties keep it, and whatever the writers ask of a netlist can be told from
it: these are the lemmas named after `settled`.  All that a driver shows beyond that is whether its pin
had to be tied, and `Driver.shown` leaves it out.
-/

namespace CircuitLowering

/-- A driver without the mark that its reader was tied to ground. -/
def Driver.shown (d : Driver) : Driver := { d with padded := false }

def InputBinding.shown (b : InputBinding) : InputBinding := { b with driver := b.driver.shown }

def Primitive.shown (p : Primitive) : Primitive := { p with inputs := p.inputs.map InputBinding.shown }

namespace Netlist

def settled (nl : Netlist) : Netlist :=
  { nl with
    pins := nl.pins.mapIdx fun id p =>
      { p with net := if nl.isUndriven id then some groundNet else p.net }
    nets := nl.nets.map ({ · with sinks := [] }) }

/-! ### Ties keep it -/

section Ties

variable (nl : Netlist)

theorem topInputs_tie (id : PinId) : (nl.tie id).topInputs = nl.topInputs := by
  unfold tie connect
  split
  · split <;> rfl
  · rfl

theorem topOutputs_tie (id : PinId) : (nl.tie id).topOutputs = nl.topOutputs := by
  unfold tie connect
  split
  · split <;> rfl
  · rfl

theorem topOutputs_tieAll (ids : List PinId) : (nl.tieAll ids).topOutputs = nl.topOutputs :=
  nl.tieAll_keeps ids (·.topOutputs) topOutputs_tie

theorem settled_tie (id : PinId) : (nl.tie id).settled = nl.settled := by
  have hnets : (nl.tie id).nets.map (fun n : Net => { n with sinks := [] })
      = nl.nets.map fun n => { n with sinks := [] } := by
    apply Array.ext_getElem?
    intro w
    simpa only [Array.getElem?_map] using nl.map_nets_tie ({ · with sinks := [] }) (fun _ _ => rfl) id w
  have hpins : (nl.tie id).settled.pins = nl.settled.pins := by
    apply Array.ext_getElem?
    intro j
    simp only [settled, Array.getElem?_mapIdx, getElem?_pins_tie, isUndriven_tie]
    by_cases hj : j = id
    · subst hj
      cases nl.pins[j]? <;> by_cases hundriven : nl.isUndriven j <;> simp [hundriven]
    · simp [hj]
  exact (Netlist.mk.injEq ..).mpr
    ⟨nodes_tie id, hpins, hnets, nl.topInputs_tie id, nl.topOutputs_tie id⟩

theorem settled_tieAll (ids : List PinId) : (nl.tieAll ids).settled = nl.settled :=
  nl.tieAll_keeps ids settled settled_tie

end Ties

/-! ### What can be told from it -/

section Settled

variable {nl nl' : Netlist}

theorem nodes_of_settled (h : nl'.settled = nl.settled) : nl'.nodes = nl.nodes := by
  have hnodes : nl'.settled.nodes = nl.settled.nodes := by rw [h]
  exact hnodes

theorem topInputs_of_settled (h : nl'.settled = nl.settled) : nl'.topInputs = nl.topInputs := by
  have htop : nl'.settled.topInputs = nl.settled.topInputs := by rw [h]
  exact htop

theorem topOutputs_of_settled (h : nl'.settled = nl.settled) : nl'.topOutputs = nl.topOutputs := by
  have htop : nl'.settled.topOutputs = nl.settled.topOutputs := by rw [h]
  exact htop

/-- A pin is the same in both, its net apart. -/
theorem pins_of_settled (h : nl'.settled = nl.settled) (id : PinId) :
    (nl.pins[id]? = none ∧ nl'.pins[id]? = none) ∨
      ∃ p net, nl.pins[id]? = some p ∧ nl'.pins[id]? = some { p with net := net } := by
  have hpin : nl'.settled.pins[id]? = nl.settled.pins[id]? := by rw [h]
  simp only [settled, Array.getElem?_mapIdx] at hpin
  cases hp : nl.pins[id]? with
  | none =>
    rw [hp, Option.map_none, Option.map_eq_none_iff] at hpin
    exact Or.inl ⟨rfl, hpin⟩
  | some p =>
    rw [hp, Option.map_some, Option.map_eq_some_iff] at hpin
    obtain ⟨p', hp', hsame⟩ := hpin
    refine Or.inr ⟨p, p'.net, rfl, ?_⟩
    rw [hp']
    simp only [Pin.mk.injEq] at hsame
    obtain ⟨hname, hmapping, hdirection, hnode, -⟩ := hsame
    obtain ⟨name, mapping, direction, node, net⟩ := p'
    subst hname hmapping hdirection hnode
    rfl

theorem direction_of_settled (h : nl'.settled = nl.settled) (id : PinId) :
    (nl'.pins[id]?).map (·.direction) = (nl.pins[id]?).map (·.direction) := by
  rcases pins_of_settled h id with ⟨hp, hp'⟩ | ⟨p, net, hp, hp'⟩
  · rw [hp, hp']
  · rw [hp, hp']
    rfl

theorem map_nets_settled {α : Type} (f : Net → α) (hf : ∀ n, f { n with sinks := [] } = f n)
    (w : NetId) : (nl.settled.nets[w]?).map f = (nl.nets[w]?).map f := by
  simp only [settled, Array.getElem?_map, Option.map_map, Function.comp_def, hf]

theorem drivers_of_settled (h : nl'.settled = nl.settled) : nl'.drivers = nl.drivers := by
  have hdrivers (nl : Netlist) (w : NetId) : nl.settled.drivers w = nl.drivers w :=
    congrArg (·.getD []) (map_nets_settled (·.pins .output) (fun _ => rfl) w)
  funext w
  rw [← hdrivers, h, hdrivers]

theorem netLabel_of_settled (h : nl'.settled = nl.settled) (w : NetId) :
    nl'.netLabel w = nl.netLabel w := by
  have hname (nl : Netlist) : (nl.settled.nets[w]?).map (·.name) = (nl.nets[w]?).map (·.name) :=
    map_nets_settled (·.name) (fun _ => rfl) w
  have hlabel (nl : Netlist) : nl.settled.netLabel w = nl.netLabel w := by
    have hname := hname nl
    unfold netLabel
    cases hnew : nl.settled.nets[w]? <;> cases hold : nl.nets[w]? <;> simp_all
  rw [← hlabel, h, hlabel]

/-- The net that a pin is read from is its net once all pins are tied. -/
theorem netRead_of_settled (h : nl'.settled = nl.settled) (id : PinId) :
    nl'.netRead id = nl.netRead id := by
  have hread (nl : Netlist) : (nl.settled.netOf? id).getD groundNet = nl.netRead id := by
    unfold netRead netOf? settled
    simp only [Array.getElem?_mapIdx]
    by_cases hundriven : nl.isUndriven id
    · obtain ⟨p, hp, -⟩ := isUndriven_iff.mp hundriven
      simp [hundriven, hp]
    · simp only [hundriven, Bool.false_eq_true, if_false]
      cases nl.pins[id]? <;> rfl
  rw [← hread, h, hread]

theorem ownerName_of_settled (h : nl'.settled = nl.settled) (id : PinId) :
    nl'.ownerName id = nl.ownerName id := by
  unfold ownerName
  rw [nodes_of_settled h]
  rcases pins_of_settled h id with ⟨hp, hp'⟩ | ⟨p, net, hp, hp'⟩
  · rw [hp, hp']
  · rw [hp, hp']
    rfl

theorem pinLabel_of_settled (h : nl'.settled = nl.settled) (id : PinId) :
    nl'.pinLabel id = nl.pinLabel id := by
  unfold pinLabel pin node
  rw [nodes_of_settled h]
  rcases pins_of_settled h id with ⟨hp, hp'⟩ | ⟨p, net, hp, hp'⟩
  · rw [hp, hp']
  · rw [hp, hp']
    rfl

theorem driverAt_of_settled (h : nl'.settled = nl.settled) (id : PinId) (padded padded' : Bool) :
    (nl'.driverAt id padded').shown = (nl.driverAt id padded).shown := by
  unfold driverAt driverName pin node
  rw [nodes_of_settled h]
  rcases pins_of_settled h id with ⟨hp, hp'⟩ | ⟨p, net, hp, hp'⟩
  · rw [hp, hp']
    rfl
  · rw [hp, hp']
    rfl

theorem diagnostic_of_settled (h : nl'.settled = nl.settled) (id : PinId) :
    nl'.diagnostic id = nl.diagnostic id := by
  unfold diagnostic label
  rw [ownerName_of_settled h, pinLabel_of_settled h]

/-- A pin leads to the same driver, or to the same error. -/
theorem reading_of_settled (h : nl'.settled = nl.settled) (id : PinId) :
    (nl'.reading id).map Driver.shown = (nl.reading id).map Driver.shown := by
  unfold reading label
  rw [netRead_of_settled h, drivers_of_settled h, netLabel_of_settled h, ownerName_of_settled h,
    pinLabel_of_settled h]
  rcases nl.drivers (nl.netRead id) with _ | ⟨driver, _ | ⟨other, rest⟩⟩
  · rfl
  · exact congrArg Except.ok (driverAt_of_settled h driver _ _)
  · rfl

end Settled

end Netlist

end CircuitLowering
