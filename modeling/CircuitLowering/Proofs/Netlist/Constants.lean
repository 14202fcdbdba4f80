import CircuitLowering.Proofs.Emission.Repairs

/-!
# The constant nets

The first three nets of a netlist stand for the constants.  Ties move pins to the first of them, so
that it is there is part of what an operation relies on, and `Wired` says so.  A circuit that was read
from a description keeps more: each constant net is driven by the pin of its own node and by no other,
which is `Powered`.
-/

namespace CircuitLowering

namespace Netlist

/-- A netlist whose references agree and which has a net for each of the three constants. -/
structure Wired (nl : Netlist) : Prop extends nl.CrossReferenced where
  constants : 3 ≤ nl.nets.size

section Wired

variable {nl nl' : Netlist}

theorem Wired.of_graph (hnl : nl.Wired) (h : nl'.graph = nl.graph) : nl'.Wired where
  toCrossReferenced := hnl.toCrossReferenced.of_graph h
  constants := by
    have hnets : nl'.graph.nets = nl.graph.nets := congrArg Netlist.nets h
    change 3 ≤ nl'.graph.nets.size
    rw [hnets]
    exact hnl.constants

theorem Wired.connect (hnl : nl.Wired) {net : NetId} (hnet : net < nl.nets.size) (pin : PinId) :
    (nl.connect net pin).Wired where
  toCrossReferenced := hnl.toCrossReferenced.connect nl net pin hnet
  constants := by
    rw [size_nets_connect]
    exact hnl.constants

theorem size_nets_addTopInput (name : String) :
    (nl.addTopInput name).2.nets.size = nl.nets.size + 1 := by
  simp [addTopInput, addSource, addNode, addNet, attachPort, setPinName]

theorem size_nets_attachTopOutput (name : String) (net : NetId) :
    (nl.attachTopOutput name net).2.nets.size = nl.nets.size := by
  simp [attachTopOutput, addNode, attachPort]

theorem wired_initial : initial.Wired where
  toCrossReferenced := crossReferenced_initial
  constants := by decide +kernel

theorem Wired.tie (hnl : nl.Wired) (id : PinId) : (nl.tie id).Wired := by
  unfold Netlist.tie
  split
  · exact hnl.connect (Nat.lt_of_lt_of_le (by decide) hnl.constants) id
  · exact hnl

theorem Wired.tieAll (hnl : nl.Wired) (ids : List PinId) : (nl.tieAll ids).Wired := by
  induction ids generalizing nl with
  | nil => exact hnl
  | cons id ids ih => exact ih (hnl.tie id)

end Wired

/-! ### Drivers of the constants -/

/-- A netlist whose references agree and in which each constant net is driven by the pin of its own
node and by no other. -/
structure Powered (nl : Netlist) : Prop extends nl.CrossReferenced where
  driven : ∀ w, isConstantNet w → nl.drivers w = [w]

section Powered

variable {nl nl' : Netlist}

theorem drivers_connect_of_ne {net w : NetId} {pin : PinId} (hw : w ≠ net)
    (hleft : ∀ p, nl.pins[pin]? = some p → p.net = some w → p.direction = .input) :
    (nl.connect net pin).drivers w = nl.drivers w := by
  unfold connect
  split
  · rfl
  · next p hp =>
    simp only [drivers, pinsOfNet, Array.getElem?_modify, if_neg (Ne.symm hw)]
    cases hold : p.net with
    | none => rfl
    | some old =>
      rw [Array.getElem?_modify]
      split
      · next h =>
        subst h
        rw [hleft p hp hold]
        cases nl.nets[old]? <;> rfl
      · rfl

theorem Powered.two_lt_nets (hnl : nl.Powered) : 2 < nl.nets.size := by
  apply Nat.lt_of_not_le
  intro hsize
  have hdriven := hnl.driven padNet rfl
  simp [drivers, pinsOfNet, padNet, Array.getElem?_eq_none hsize] at hdriven

/-- The pin that drives a constant net has its number. -/
theorem Powered.lt_of_drives (hnl : nl.Powered) {w : NetId} (hw : isConstantNet w) {pin : PinId}
    {p : Pin} (hp : nl.pins[pin]? = some p) (hnet : p.net = some w) (hout : p.direction = .output) :
    pin = w := by
  have hattached := hnl.attached w .output pin
  rw [joins, hp, Option.any_some, if_pos (by simp [hnet, hout])] at hattached
  have hmem : pin ∈ nl.drivers w := List.count_pos_iff.mp (by rw [drivers, hattached]; decide)
  rw [hnl.driven w hw] at hmem
  exact List.mem_singleton.mp hmem

theorem Powered.two_lt_pins (hnl : nl.Powered) : 2 < nl.pins.size := by
  apply Nat.lt_of_not_le
  intro hsize
  have hattached := hnl.attached padNet .output 2
  have hdriven : nl.pinsOfNet padNet .output = [2] := hnl.driven padNet rfl
  rw [hdriven, joins, Array.getElem?_eq_none hsize] at hattached
  exact absurd hattached (by decide)

theorem Powered.of_graph (hnl : nl.Powered) (h : nl'.graph = nl.graph) : nl'.Powered where
  toCrossReferenced := hnl.toCrossReferenced.of_graph h
  driven w hw := by rw [drivers_of_graph h, hnl.driven w hw]

theorem Powered.addNode (hnl : nl.Powered) (name : String) (kind : NodeKind) :
    (nl.addNode name kind).2.Powered where
  toCrossReferenced := hnl.toCrossReferenced.addNode nl name kind
  driven := hnl.driven

theorem Powered.addNet (hnl : nl.Powered) (name : Option String) :
    (nl.addNet name).2.Powered where
  toCrossReferenced := hnl.toCrossReferenced.addNet nl name
  driven w hw := by rw [drivers, pinsOfNet_addNet, ← drivers, hnl.driven w hw]

theorem Powered.attachPort (hnl : nl.Powered) {node : NodeId} (hnode : node < nl.nodes.size)
    (mapping : String) (size : Nat) (d : Direction) :
    (nl.attachPort node mapping size d).2.Powered where
  toCrossReferenced := hnl.toCrossReferenced.attachPort nl node mapping size d hnode
  driven := hnl.driven

/-- An input pin may read any net. -/
theorem Powered.connect_input (hnl : nl.Powered) {net : NetId} (hnet : net < nl.nets.size)
    {pin : PinId} (hpin : ∀ p, nl.pins[pin]? = some p → p.direction = .input) :
    (nl.connect net pin).Powered where
  toCrossReferenced := hnl.toCrossReferenced.connect nl net pin hnet
  driven w hw := by
    rw [← hnl.driven w hw]
    cases hp : nl.pins[pin]? with
    | none => simp only [connect, hp]
    | some p =>
      exact congrArg (·.getD []) (map_nets_connect (·.pins .output) (fun _ _ => rfl) hp (hpin p hp) w)

/-- A pin that is not one of the first three may drive any net that is not constant. -/
theorem Powered.connect_output (hnl : nl.Powered) {net : NetId} (hnet : net < nl.nets.size)
    (hconstant : isConstantNet net = false) {pin : PinId} (hpin : isConstantNet pin = false) :
    (nl.connect net pin).Powered where
  toCrossReferenced := hnl.toCrossReferenced.connect nl net pin hnet
  driven w hw := by
    rw [← hnl.driven w hw]
    refine drivers_connect_of_ne ?_ fun p hp hold => ?_
    · intro h
      subst h
      exact absurd hw (by simp [hconstant])
    · cases hdirection : p.direction with
      | input => rfl
      | output =>
        have hsame := hnl.lt_of_drives hw hp hold hdirection
        rw [hsame, hw] at hpin
        exact absurd hpin (by decide)

theorem isConstantNet_of_two_lt {w : Nat} (h : 2 < w) : isConstantNet w = false :=
  decide_eq_false (Nat.not_lt.mpr h)

theorem Powered.addSource (hnl : nl.Powered) (name : String) (kind : NodeKind) :
    (nl.addSource name kind).2.2.Powered := by
  have hport := ((hnl.addNode name kind).addNet (some name)).attachPort
    (show nl.nodes.size < _ by simp [Netlist.addNode, Netlist.addNet]) name 1 .output
  simp only [Netlist.addSource, Netlist.addNode, Netlist.addNet, Netlist.attachPort,
    List.range'_one, List.foldl_cons, List.foldl_nil] at hport ⊢
  refine Powered.connect_output (hport.of_graph (graph_setPinName _ _ _)) (by simp [setPinName]) ?_ ?_
  · exact isConstantNet_of_two_lt hnl.two_lt_nets
  · exact isConstantNet_of_two_lt hnl.two_lt_pins

theorem Powered.withBoundary (hnl : nl.Powered) (topInputs topOutputs : List NodeId) :
    { nl with topInputs, topOutputs }.Powered :=
  ⟨hnl.toCrossReferenced.withBoundary topInputs topOutputs, hnl.driven⟩

theorem Powered.addTopInput (hnl : nl.Powered) (name : String) :
    (nl.addTopInput name).2.Powered :=
  (hnl.addSource name .input).withBoundary _ _

theorem Powered.attachTopOutput (hnl : nl.Powered) (name : String) {net : NetId}
    (hnet : net < nl.nets.size) : (nl.attachTopOutput name net).2.Powered := by
  have hport := (hnl.addNode name .output).attachPort
    (show nl.nodes.size < _ by simp [Netlist.addNode]) name 1 .input
  have hpin : ∀ p, ((nl.addNode name .output).2.attachPort nl.nodes.size name 1
      .input).2.pins[nl.pins.size]? = some p → p.direction = .input := by
    intro p hp
    rw [getElem?_pins_attachPort] at hp
    simp [Netlist.addNode] at hp
    rw [← hp]
  exact (hport.connect_input hnet hpin).withBoundary _ _

theorem powered_initial : initial.Powered where
  toCrossReferenced := crossReferenced_initial
  driven w hw := by
    have hdriven : ∀ v < 3, initial.drivers v = [v] := by decide +kernel
    exact hdriven w (of_decide_eq_true hw)

end Powered

end Netlist

end CircuitLowering
