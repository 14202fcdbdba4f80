import CircuitLowering.Proofs.Circuit.Boundary

/-!
# A circuit is connected as described

A description gives nets by name, at places: an input of the circuit, a pin of a port of a node, an
output of the circuit.  `CircuitDescription.netAt?` reads off what is given at a place, and
`CircuitDescription.pinAt?` finds the pin of the place in a netlist.  `Connects` then says what
connects two pins: nothing but their names, wherever the names stand and whatever was met first.

Names of inputs must be distinct here.  An input whose name comes again further on drives a net that
no name leads to any more.
-/

namespace CircuitLowering

open Netlist

/-! ### The pins of ports -/

/-- A list of pins that was put together from lists is cut into these lists. -/
theorem Slot.mem_cutFrom_iff {pins : List (List PinId)} {first : Nat} {slot : Slot} :
    slot ∈ Slot.cutFrom first pins.flatten (pins.map List.length) ↔
      ∃ k ids, slot.port = first + k ∧ pins[k]? = some ids ∧ ids[slot.index]? = some slot.pin ∧
        slot.portSize = ids.length := by
  induction pins generalizing first with
  | nil =>
    constructor
    · intro h
      cases h
    · rintro ⟨k, ids, -, hids, -⟩
      cases hids
  | cons here pins ih =>
    rw [List.flatten_cons, List.map_cons, Slot.cutFrom, List.take_left, List.drop_left,
      List.mem_append, List.mem_map, ih]
    constructor
    · rintro (⟨q, hq, rfl⟩ | ⟨k, ids, hport, hids, hid, hsize⟩)
      · exact ⟨0, here, rfl, rfl, List.mem_zipIdx_iff_getElem?.mp hq, rfl⟩
      · exact ⟨k + 1, ids, by omega, hids, hid, hsize⟩
    · rintro ⟨k, ids, hport, hids, hid, hsize⟩
      cases k with
      | zero =>
        cases hids
        refine .inl ⟨(slot.pin, slot.index), List.mem_zipIdx_iff_getElem?.mpr hid, ?_⟩
        obtain ⟨pin, port, index, size⟩ := slot
        cases hport
        cases hsize
        rfl
      | succ k => exact .inr ⟨k, ids, by omega, hids, hid, hsize⟩

/-- The pin of a port of a node: the one with the given index in the given port. -/
def Netlist.portPin? (nl : Netlist) (k : NodeId) (d : Direction) (port index : Nat) : Option PinId :=
  ((Slot.cut (nl.pinsOfNode k d) (nl.sizesOfNode k d)).find? fun slot =>
    slot.port = port ∧ slot.index = index).map (·.pin)

theorem Builder.HoldsPorts.portPin? {b : Builder} {k : NodeId} {d : Direction}
    {ports : List PortBinding} (h : b.HoldsPorts k d ports) {p i : Nat} {port : PortBinding}
    (hport : ports[p]? = some port) {name? : Option String} (hname : port.nets[i]? = some name?) :
    ∃ id, b.netlist.portPin? k d p i = some id ∧ b.Assigned k port.mapping d id name? := by
  obtain ⟨pins, hpins, hsizes, hassigned⟩ := h
  obtain ⟨ids, hids, hport⟩ := exists_of_forall₂ hassigned hport
  obtain ⟨id, hid, hpin⟩ := exists_of_forall₂ hport hname
  refine ⟨id, ?_, hpin⟩
  have hmem {slot : Slot} : slot ∈ Slot.cut pins.flatten (pins.map List.length) ↔ _ :=
    Slot.mem_cutFrom_iff
  have hplace : (⟨id, p, i, ids.length⟩ : Slot) ∈ Slot.cut pins.flatten (pins.map List.length) :=
    hmem.mpr ⟨p, ids, (Nat.zero_add p).symm, hids, hid, rfl⟩
  unfold Netlist.portPin?
  rw [hpins, hsizes]
  cases hfind : (Slot.cut pins.flatten (pins.map List.length)).find? fun slot =>
      slot.port = p ∧ slot.index = i with
  | none =>
    have hnone := List.find?_eq_none.mp hfind _ hplace
    simp at hnone
  | some slot =>
    -- only one slot has this port and this index
    obtain ⟨hslotport, hslotindex⟩ : slot.port = p ∧ slot.index = i := by
      simpa using List.find?_some hfind
    obtain ⟨k', ids', hk', hids', hid', -⟩ := hmem.mp (List.mem_of_find?_eq_some hfind)
    rw [hslotport, Nat.zero_add] at hk'
    subst hk'
    cases hids.symm.trans hids'
    rw [hslotindex, hid] at hid'
    exact hid'.symm

/-! ### Places -/

/-- A place of a description at which the net of a pin is given. -/
inductive Place where
  | topInput (index : Nat)
  /-- A pin of a port on one side of a node. -/
  | node (side : Direction) (index port pin : Nat)
  | topOutput (index : Nat)
deriving DecidableEq, Repr

/-- The direction of the pin at a place. An input of the circuit drives its net. -/
def Place.direction : Place → Direction
  | topInput _ => .output
  | node side _ _ _ => side
  | topOutput _ => .input

namespace CircuitDescription

variable (d : CircuitDescription)

/-- What a description gives at a place: the label of the port and the name of the net, if there is
one; `none` for a place that the description does not have. -/
def bindingAt? : Place → Option (String × Option String)
  | .topInput i => (d.inputs[i]?).map fun name => (name, some name)
  | .node side k p i =>
    (d.nodes[k]?).bind fun decl => ((decl.ports side)[p]?).bind fun port =>
      (port.nets[i]?).map fun name? => (port.mapping, name?)
  | .topOutput i => (d.outputs[i]?).map fun name => (name, some name)

/-- The node that a described node becomes. The constants and the inputs of the circuit come before. -/
def nodeId (k : Nat) : NodeId := 3 + d.inputs.length + k

def nodeAt : Place → NodeId
  | .topInput i => 3 + i
  | .node _ k _ _ => d.nodeId k
  | .topOutput i => d.nodeId d.nodes.length + i

def pinAt? (nl : Netlist) : Place → Option PinId
  | .topInput i => (nl.topInputs[i]?).bind fun k => (nl.pinsOfNode k .output).head?
  | .node side k p i => nl.portPin? (d.nodeId k) side p i
  | .topOutput i => (nl.topOutputs[i]?).bind fun k => (nl.pinsOfNode k .input).head?

def netAt? (nl : Netlist) (place : Place) : Option NetId := (d.pinAt? nl place).bind nl.netOf?

end CircuitDescription

/-- Whether the pins of a netlist are connected as a description says. -/
structure Connects (d : CircuitDescription) (nl : Netlist) : Prop where
  /-- A node has its name, and the sizes of its ports come in the order of the ports. -/
  nodes : ∀ k decl, d.nodes[k]? = some decl → nl.nodeName? (d.nodeId k) = some decl.name ∧
    ∀ side, nl.sizesOfNode (d.nodeId k) side = (decl.ports side).map (·.nets.length)
  /-- Each place has its pin, with the label of its port, and the pin has a net. -/
  placed : ∀ place label name?, d.bindingAt? place = some (label, name?) →
    ∃ id p, d.pinAt? nl place = some id ∧ nl.pins[id]? = some p ∧ p.mapping = label ∧
      p.direction = place.direction ∧ p.node = d.nodeAt place ∧ p.net ≠ none
  /-- Pins with names for their nets are on one net where the names are the same. -/
  joined : ∀ place place' label label' name name', d.bindingAt? place = some (label, some name) →
    d.bindingAt? place' = some (label', some name') →
      (d.netAt? nl place = d.netAt? nl place' ↔ name = name')
  /-- An input without a name is on the net that is left open. -/
  opened : ∀ place label, d.bindingAt? place = some (label, none) → place.direction = .input →
    d.netAt? nl place = some padNet
  /-- An output without a name is anonymous and alone on its net. -/
  alone : ∀ place label, d.bindingAt? place = some (label, none) → place.direction = .output →
    ∃ id p w, d.pinAt? nl place = some id ∧ nl.pins[id]? = some p ∧ p.name = none ∧
      p.net = some w ∧ nl.nets[w]? = some { name := none, drivers := [id], sinks := [] }
  /-- An output with a name carries it, and so does its net. -/
  named : ∀ place label name, d.bindingAt? place = some (label, some name) →
    place.direction = .output → ∃ id p w, d.pinAt? nl place = some id ∧ nl.pins[id]? = some p ∧
      p.name = some name ∧ p.net = some w ∧ nl.netName? w = some (some name)

/-! ### Builders that hold what is described -/

namespace Builder

/-- Whether a builder has all that a description declares: its nodes, and at each place its pin. -/
structure Holds (d : CircuitDescription) (b : Builder) : Prop where
  labelled : b.Labelled
  nodes : ∀ k decl, d.nodes[k]? = some decl → b.HoldsNode (d.nodeId k) decl
  places : ∀ place label name?, d.bindingAt? place = some (label, name?) →
    ∃ id, d.pinAt? b.netlist place = some id ∧
      b.Assigned (d.nodeAt place) label place.direction id name?

section Holding

variable {d : CircuitDescription} {b b' : Builder}

theorem HoldsPorts.sizes {k : NodeId} {side : Direction} {ports : List PortBinding}
    (h : b.HoldsPorts k side ports) :
    b.netlist.sizesOfNode k side = ports.map (·.nets.length) := by
  obtain ⟨pins, -, hsizes, hassigned⟩ := h
  rw [hsizes]
  have hlengths : List.Forall₂ (fun ids port => ids.length = port.nets.length) pins ports :=
    hassigned.imp fun _ _ hport => hport.length_eq
  have hequal : List.Forall₂ (· = ·) (pins.map List.length) (ports.map (·.nets.length)) :=
    List.forall₂_map_left_iff.mpr (List.forall₂_map_right_iff.mpr hlengths)
  rwa [List.forall₂_eq_eq_eq] at hequal

/-- What was given to the pin of an input before there were nodes. -/
def StartsWith (d : CircuitDescription) (i : Nat) (label : String) (name? : Option String) : Prop :=
  ∃ pin, (start d).netlist.pinsOfNode (3 + i) .output = [pin] ∧
    (start d).Assigned (3 + i) label .output pin name?

/-- Inputs, nodes and outputs, added in this order, are all there in the end. The pin of an input has
what it had at the start. -/
theorem holds_of_starts (h : d.nodes.foldlM Builder.addNode (start d) = .ok b) :
    (d.outputs.foldl Builder.addOutput b).Labelled ∧
      (∀ k decl, d.nodes[k]? = some decl →
        (d.outputs.foldl Builder.addOutput b).HoldsNode (d.nodeId k) decl) ∧
      ∀ place label name?, d.bindingAt? place = some (label, name?) →
        (∀ i, place = .topInput i → StartsWith d i label name?) →
        ∃ id, d.pinAt? (d.outputs.foldl Builder.addOutput b).netlist place = some id ∧
          (d.outputs.foldl Builder.addOutput b).Assigned (d.nodeAt place) label place.direction id
            name? := by
  have hstart := started_start d
  obtain ⟨hgrown, hlabelled, hnodes⟩ := hstart.labelled.addNodes h
  have hfinal := hlabelled.addOutputs d.outputs
  generalize d.outputs.foldl Builder.addOutput b = final at hfinal
  rw [hstart.size] at hgrown hnodes
  have hsize : b.netlist.nodes.size = d.nodeId d.nodes.length := hgrown.size.trans (by
    rw [hstart.size]
    rfl)
  have hnode : ∀ k decl, d.nodes[k]? = some decl → final.HoldsNode (d.nodeId k) decl := by
    intro k decl hk
    have hlt : d.nodeId k < b.netlist.nodes.size := by
      rw [hsize]
      exact Nat.add_lt_add_left (List.getElem?_eq_some_iff.mp hk).1 _
    have hheld := (hnodes k decl hk).extends hfinal.grown hlt
    exact ⟨hheld.name, hheld.ports⟩
  refine ⟨hfinal.labelled, hnode, ?_⟩
  intro place label name? hplace hinput
  cases place with
  | topInput i =>
    obtain ⟨name, hi, hname⟩ := Option.map_eq_some_iff.mp hplace
    cases hname
    obtain ⟨id, hpins, hassigned⟩ := hinput i rfl
    have hlt : i < d.inputs.length := (List.getElem?_eq_some_iff.mp hi).1
    have hold : 3 + i < 3 + d.inputs.length := Nat.add_lt_add_left hlt 3
    have htop : final.netlist.topInputs[i]? = some (3 + i) := by
      have hsame : final.netlist.topInputs = b.netlist.topInputs := hfinal.grown.topInputs
      rw [hsame, hgrown.topInputs, hstart.topInputs, List.getElem?_range' hlt, Nat.one_mul]
    have hpins' : final.netlist.pinsOfNode (3 + i) = _ :=
      (hfinal.grown.pins _ (by rw [hsize]; exact Nat.lt_add_right _ hold)).trans (hgrown.pins _ hold)
    have hassigned' := (hassigned.extends hgrown).extends hfinal.grown
    refine ⟨id, ?_, hassigned'⟩
    change (final.netlist.topInputs[i]?).bind _ = some id
    rw [htop, Option.bind_some, hpins', hpins]
    rfl
  | node side k p i =>
    obtain ⟨decl, hk, hplace⟩ := Option.bind_eq_some_iff.mp hplace
    obtain ⟨port, hp, hplace⟩ := Option.bind_eq_some_iff.mp hplace
    obtain ⟨name?', hi, hbinding⟩ := Option.map_eq_some_iff.mp hplace
    cases hbinding
    exact ((hnode k decl hk).ports side).portPin? hp hi
  | topOutput i =>
    obtain ⟨name, hi, hname⟩ := Option.map_eq_some_iff.mp hplace
    cases hname
    obtain ⟨id, hpins, hassigned⟩ := hfinal.outputs i label hi
    have hlt : i < d.outputs.length := (List.getElem?_eq_some_iff.mp hi).1
    rw [hsize] at hpins hassigned
    have htop : final.netlist.topOutputs[i]? = some (d.nodeId d.nodes.length + i) := by
      rw [hfinal.topOutputs, hgrown.topOutputs, hstart.topOutputs, List.nil_append, hsize,
        List.getElem?_range' hlt, Nat.one_mul]
    refine ⟨id, ?_, hassigned⟩
    change (final.netlist.topOutputs[i]?).bind _ = some id
    rw [htop, Option.bind_some, hpins]
    rfl

/-- Where the names of inputs are distinct, each input has kept its own. -/
theorem holds_of_foldlM (hinputs : d.inputs.Nodup)
    (h : d.nodes.foldlM Builder.addNode (start d) = .ok b) :
    Holds d (d.outputs.foldl Builder.addOutput b) := by
  obtain ⟨hlabelled, hnodes, hplaces⟩ := holds_of_starts h
  refine ⟨hlabelled, hnodes, fun place label name? hplace => hplaces place label name? hplace ?_⟩
  rintro i rfl
  obtain ⟨name, hi, hname⟩ := Option.map_eq_some_iff.mp hplace
  cases hname
  exact (started_start d).inputs hinputs i label hi

end Holding

end Builder

/-! ### Circuits -/

/-- A net that no other pin has is listed with its pin and with nothing else. -/
theorem Netlist.CrossReferenced.net_eq_of_alone {nl : Netlist} (hnl : nl.CrossReferenced) {id : PinId}
    {p : Pin} {w : NetId} (hp : nl.pins[id]? = some p) (hdirection : p.direction = .output)
    (hw : p.net = some w) (hanonymous : nl.netName? w = some none)
    (halone : ∀ (other : PinId) (q : Pin), nl.pins[other]? = some q → q.net = some w → other = id) :
    nl.nets[w]? = some { name := none, drivers := [id], sinks := [] } := by
  have hcount : ∀ d other, (nl.pinsOfNet w d).count other =
      if d = .output ∧ other = id then 1 else 0 := by
    intro d other
    rw [hnl.attached]
    congr 1
    apply propext
    rw [joins, Option.any_eq_true]
    constructor
    · rintro ⟨q, hq, hjoins⟩
      obtain ⟨hqnet, hqdirection⟩ : q.net = some w ∧ q.direction = d := by simpa using hjoins
      have hsame := halone other q hq hqnet
      subst hsame
      cases hp.symm.trans hq
      exact ⟨hqdirection.symm.trans hdirection, rfl⟩
    · rintro ⟨rfl, rfl⟩
      exact ⟨p, hp, by simp [hw, hdirection]⟩
  obtain ⟨n, hn, hname⟩ := Option.map_eq_some_iff.mp hanonymous
  have hpins : ∀ d, nl.pinsOfNet w d = n.pins d := by
    intro d
    rw [pinsOfNet, hn]
    rfl
  have hdrivers : n.drivers = [id] := by
    refine List.perm_singleton.mp (List.perm_iff_count.mpr fun other => ?_)
    have hother : n.drivers.count other = if other = id then 1 else 0 := by
      have hother := hcount .output other
      rw [hpins] at hother
      simpa [Net.pins] using hother
    rw [hother, List.count_singleton]
    by_cases hsame : other = id
    · simp [hsame]
    · simp [hsame, Ne.symm hsame]
  have hsinks : n.sinks = [] := by
    refine List.eq_nil_iff_forall_not_mem.mpr fun other => ?_
    have hother := hcount .input other
    rw [hpins] at hother
    simpa [Net.pins, List.count_eq_zero] using hother
  rw [hn, ← hname, ← hdrivers, ← hsinks]

namespace Builder.Holds

variable {d : CircuitDescription} {b : Builder}

/-- What is described of a pin, the netlist shows. -/
theorem connects (hb : b.Holds d) (hwired : b.netlist.CrossReferenced) : Connects d b.netlist := by
  have hnet : ∀ {place : Place} {id : PinId} {p : Pin}, d.pinAt? b.netlist place = some id →
      b.netlist.pins[id]? = some p → d.netAt? b.netlist place = p.net := by
    intro place id p hid hp
    rw [CircuitDescription.netAt?, hid, Option.bind_some, netOf?, hp, Option.bind_some]
  constructor
  · intro k decl hk
    have hnode := hb.nodes k decl hk
    exact ⟨hnode.name, fun side => (hnode.ports side).sizes⟩
  · intro place label name? hplace
    obtain ⟨id, hid, w, hp, -⟩ := hb.places place label name? hplace
    exact ⟨id, _, hid, hp, rfl, rfl, rfl, by simp⟩
  · intro place place' label label' name name' hplace hplace'
    obtain ⟨id, hid, w, hp, hw⟩ := hb.places place label _ hplace
    obtain ⟨id', hid', w', hp', hw'⟩ := hb.places place' label' _ hplace'
    rw [hnet hid hp, hnet hid' hp', Option.some.injEq]
    constructor
    · intro hsame
      -- a net has one name
      subst hsame
      have hname := (hb.labelled.table name w hw).symm.trans (hb.labelled.table name' w hw')
      simpa using hname
    · rintro rfl
      exact Option.some.inj (hw.symm.trans hw')
  · intro place label hplace hdirection
    obtain ⟨id, hid, w, hp, hw⟩ := hb.places place label _ hplace
    rw [hnet hid hp]
    rw [hdirection] at hw
    exact congrArg some hw
  · intro place label hplace hdirection
    obtain ⟨id, hid, w, hp, hw⟩ := hb.places place label _ hplace
    rw [hdirection] at hw hp
    exact ⟨id, _, w, hid, hp, rfl, rfl, hwired.net_eq_of_alone hp rfl rfl hw.1 hw.2⟩
  · intro place label name hplace hdirection
    obtain ⟨id, hid, w, hp, hw⟩ := hb.places place label _ hplace
    rw [hdirection] at hp
    exact ⟨id, _, w, hid, hp, rfl, rfl, hb.labelled.table name w hw⟩

end Builder.Holds

namespace CircuitDescription

/-- The pins of a circuit are connected as its description says. -/
theorem connects_of_build {d : CircuitDescription} (hinputs : d.inputs.Nodup) {circuit : Circuit}
    (h : d.build = .ok circuit) : Connects d circuit.netlist := by
  have hwired := (sound_build h).1.toCrossReferenced
  obtain ⟨b, hnodes, h⟩ := bind_eq_ok_iff.mp h
  cases h
  exact (Builder.holds_of_foldlM hinputs hnodes).connects hwired

end CircuitDescription

/-! ### A circuit with forward references -/

/-- A gate that reads what a block further on drives. One input of the circuit is called as the net
that is always zero, and two pins of the gate are left without a name. -/
def forwardDescription : CircuitDescription where
  inputs := ["a", "gnd"]
  outputs := ["s", "gnd"]
  nodes := [
    { name := "n"
      kind := .lut 2 "0110"
      inputs := [{ mapping := "in", nets := [some "s", none] }]
      outputs := [{ mapping := "out", nets := [none] }] },
    { name := "m"
      kind := .hardBlock "block"
      inputs := [{ mapping := "x", size := some 1, nets := [some "gnd"] }]
      outputs := [{ mapping := "y", nets := [some "t", some "s"] }] }]

def forwardCircuit : Circuit := forwardDescription.build.toOption.getD ⟨none, {}, {}⟩

theorem build_forwardDescription : forwardDescription.build = .ok forwardCircuit :=
  eq_ok_getD (by decide +kernel) _

/-- The gate reads the net of the block's second output and the open net, and the block reads the input
of the circuit. -/
theorem connects_forwardCircuit :
    forwardDescription.inputs.Nodup ∧ forwardDescription.build = .ok forwardCircuit ∧
      forwardDescription.netAt? forwardCircuit.netlist (.node .input 0 0 0) =
        forwardDescription.netAt? forwardCircuit.netlist (.node .output 1 0 1) ∧
      forwardDescription.netAt? forwardCircuit.netlist (.node .input 0 0 1) = some padNet ∧
      forwardDescription.netAt? forwardCircuit.netlist (.node .input 1 0 0) =
        forwardDescription.netAt? forwardCircuit.netlist (.topInput 1) := by
  have hconnects := CircuitDescription.connects_of_build (by decide) build_forwardDescription
  refine ⟨by decide, build_forwardDescription, ?_, ?_, ?_⟩
  · exact (hconnects.joined _ _ "in" "y" "s" "s" rfl rfl).mpr rfl
  · exact hconnects.opened _ "in" rfl rfl
  · exact (hconnects.joined _ _ "x" "gnd" "gnd" "gnd" rfl rfl).mpr rfl

end CircuitLowering
