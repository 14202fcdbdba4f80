import CircuitLowering.Circuit.Build
import CircuitLowering.Proofs.Catalog.Names
import CircuitLowering.Proofs.Netlist.Constants

/-!
# Circuits that were read from a description

Building a circuit adds to a builder, one declaration after the other, and stops at the first that is
wrong.  `Builder.Sound` is what all of it keeps: the references of the netlist agree, each constant net
keeps its one driver, the names of signals denote nets that exist, and no two models have one name.
-/

namespace CircuitLowering

open Netlist

/-- A builder as every declaration finds it. -/
structure Builder.Sound (b : Builder) : Prop where
  powered : b.netlist.Powered
  /-- A name denotes a net that exists. -/
  named : ∀ name w, b.nets.lookup name = some w → w < b.netlist.nets.size
  /-- The models have pairwise distinct names. -/
  distinct : (b.catalog.models.map (·.name)).Nodup

namespace Builder

theorem nodup_declareModel {c : Catalog} (hc : (c.models.map (·.name)).Nodup)
    (m : ModelDeclaration) : ((declareModel c m).models.map (·.name)).Nodup := by
  have hregister := Catalog.nodup_register hc m.name
  unfold declareModel
  split
  · exact Catalog.nodup_update (hregister _ _) m.name fun _ => rfl
  · exact hregister _ _

theorem nodup_markModel {c : Catalog} (hc : (c.models.map (·.name)).Nodup) (kind : NodeKind) :
    ((markModel c kind).models.map (·.name)).Nodup := by
  unfold markModel
  split
  · exact Catalog.nodup_update hc _ fun _ => rfl
  · exact hc

/-! ### Signals -/

section Signals

variable {b : Builder}

theorem Sound.netOf (hb : b.Sound) (name : String) :
    (b.netOf name).2.Sound ∧ (b.netOf name).1 < (b.netOf name).2.netlist.nets.size := by
  unfold Builder.netOf
  split
  · next w hw => exact ⟨hb, hb.named name w hw⟩
  · have hnew : b.netlist.nets.size < (b.netlist.addNet (some name)).2.nets.size := by
      simp [Netlist.addNet]
    refine ⟨⟨hb.powered.addNet (some name), ?_, hb.distinct⟩, hnew⟩
    intro other w hw
    rw [List.lookup_cons] at hw
    split at hw
    · cases hw
      exact hnew
    · exact Nat.lt_trans (hb.named other w hw) hnew

theorem pins_netOf (name : String) : (b.netOf name).2.netlist.pins = b.netlist.pins := by
  unfold Builder.netOf
  split <;> rfl

theorem nodes_netOf (name : String) : (b.netOf name).2.netlist.nodes = b.netlist.nodes := by
  unfold Builder.netOf
  split <;> rfl

/-- An output that gets its net by name names no constant net. -/
theorem bindOutput_eq_ok {node : String} {pin : PinId} {name : String} {b' : Builder}
    (h : b.bindOutput node pin (some name) = .ok b') :
    isConstantNet (b.netOf name).1 = false ∧
      b' = { (b.netOf name).2 with
        netlist := (b.netOf name).2.netlist.setPinName pin (some name) }.connect
          (b.netOf name).1 pin := by
  unfold Builder.bindOutput at h
  dsimp only at h
  split at h
  · cases h
  · next hconstant =>
    cases h
    exact ⟨by simpa using hconstant, rfl⟩

def IsInput (b : Builder) (pin : PinId) : Prop :=
  ∀ p, b.netlist.pins[pin]? = some p → p.direction = .input

theorem isInput_netOf {name : String} {pin : PinId} :
    (b.netOf name).2.IsInput pin ↔ b.IsInput pin := by
  rw [IsInput, IsInput, pins_netOf]

theorem Sound.connect_input (hb : b.Sound) {net : NetId} (hnet : net < b.netlist.nets.size)
    {pin : PinId} (hpin : b.IsInput pin) : (b.connect net pin).Sound where
  powered := hb.powered.connect_input hnet hpin
  named name w hw := by
    change w < (b.netlist.connect net pin).nets.size
    rw [size_nets_connect]
    exact hb.named name w hw
  distinct := hb.distinct

theorem Sound.connect_output (hb : b.Sound) {net : NetId} (hnet : net < b.netlist.nets.size)
    (hconstant : isConstantNet net = false) {pin : PinId} (hpin : isConstantNet pin = false) :
    (b.connect net pin).Sound where
  powered := hb.powered.connect_output hnet hconstant hpin
  named name w hw := by
    change w < (b.netlist.connect net pin).nets.size
    rw [size_nets_connect]
    exact hb.named name w hw
  distinct := hb.distinct

/-- Parameters and names of pins make no difference. -/
theorem Sound.of_graph (hb : b.Sound) {nl : Netlist} (h : nl.graph = b.netlist.graph) :
    { b with netlist := nl }.Sound where
  powered := hb.powered.of_graph h
  named name w hw := by
    have hnets : nl.graph.nets = b.netlist.graph.nets := congrArg Netlist.nets h
    change w < nl.graph.nets.size
    rw [hnets]
    exact hb.named name w hw
  distinct := hb.distinct

theorem Sound.bindInput (hb : b.Sound) {pin : PinId} (hpin : b.IsInput pin) (name : Option String) :
    (b.bindInput pin name).Sound := by
  cases name with
  | none => exact hb.connect_input hb.powered.two_lt_nets hpin
  | some name =>
    obtain ⟨hsound, hnet⟩ := hb.netOf name
    exact hsound.connect_input hnet (isInput_netOf.mpr hpin)

theorem Sound.addNet (hb : b.Sound) (name : Option String) :
    { b with netlist := (b.netlist.addNet name).2 }.Sound where
  powered := hb.powered.addNet name
  named other w hw := by
    have hsize := hb.named other w hw
    simp only [Netlist.addNet, Array.size_push]
    exact Nat.lt_succ_of_lt hsize
  distinct := hb.distinct

theorem Sound.bindOutput (hb : b.Sound) {node : String} {pin : PinId}
    (hpin : isConstantNet pin = false) {name : Option String} {b' : Builder}
    (h : b.bindOutput node pin name = .ok b') : b'.Sound := by
  cases name with
  | none =>
    cases h
    refine (hb.addNet none).connect_output ?_ ?_ hpin
    · simp [Netlist.addNet]
    · exact isConstantNet_of_two_lt hb.powered.two_lt_nets
  | some name =>
    obtain ⟨hsound, hnet⟩ := hb.netOf name
    obtain ⟨hconstant, rfl⟩ := bindOutput_eq_ok h
    have hnamed := hsound.of_graph (graph_setPinName _ pin (some name))
    exact hnamed.connect_output hnet hconstant hpin

end Signals

/-! ### Ports -/

structure SoundAt (b : Builder) (id : NodeId) : Prop extends b.Sound where
  node : id < b.netlist.nodes.size

section Ports

variable {b : Builder} {id : NodeId}

theorem nodes_bindInput (pin : PinId) (name : Option String) :
    (b.bindInput pin name).netlist.nodes = b.netlist.nodes := by
  cases name with
  | none => exact nodes_connect b.netlist padNet pin
  | some name => exact (nodes_connect _ _ pin).trans (nodes_netOf name)

theorem nodes_bindOutput {node : String} {pin : PinId} {name : Option String} {b' : Builder}
    (h : b.bindOutput node pin name = .ok b') : b'.netlist.nodes = b.netlist.nodes := by
  cases name with
  | none =>
    cases h
    exact nodes_connect _ _ pin
  | some name =>
    obtain ⟨-, rfl⟩ := bindOutput_eq_ok h
    exact (nodes_connect _ _ pin).trans (nodes_netOf name)

theorem IsInput.bindInput {pin : PinId} (hpin : b.IsInput pin) (other : PinId)
    (name : Option String) : (b.bindInput other name).IsInput pin := by
  have hconnect (b : Builder) (hb : b.IsInput pin) (net : NetId) :
      (b.connect net other).IsInput pin := by
    intro p hp
    change (b.netlist.connect net other).pins[pin]? = some p at hp
    rw [getElem?_pins_connect] at hp
    split at hp
    · obtain ⟨q, hq, rfl⟩ := Option.map_eq_some_iff.mp hp
      exact hb q hq
    · exact hb p hp
  cases name with
  | none => exact hconnect b hpin padNet
  | some name =>
    exact hconnect _ (isInput_netOf.mpr hpin) _

theorem SoundAt.attachPort (hb : b.SoundAt id) (mapping : String) (size : Nat) (d : Direction) :
    { b with netlist := (b.netlist.attachPort id mapping size d).2 }.SoundAt id where
  powered := hb.powered.attachPort hb.node mapping size d
  named := hb.named
  distinct := hb.distinct
  node := by
    simp only [Netlist.attachPort, Array.size_modify]
    exact hb.node

theorem SoundAt.bindInputs (hb : b.SoundAt id) {pins : List (PinId × Option String)}
    (hpins : ∀ q ∈ pins, b.IsInput q.1) :
    (pins.foldl (fun b (pin, net) => b.bindInput pin net) b).SoundAt id := by
  induction pins generalizing b with
  | nil => exact hb
  | cons q pins ih =>
    refine ih ⟨hb.toSound.bindInput (hpins q List.mem_cons_self) q.2, ?_⟩ ?_
    · rw [nodes_bindInput]
      exact hb.node
    · intro q' hq'
      exact (hpins q' (List.mem_cons_of_mem _ hq')).bindInput q.1 q.2

theorem mem_zip_range' {first size : Nat} {nets : List (Option String)}
    {q : PinId × Option String} (hq : q ∈ (List.range' first size).zip nets) :
    first ≤ q.1 ∧ q.1 < first + size :=
  List.mem_range'_1.mp (List.of_mem_zip (a := q.1) (b := q.2) hq).1

theorem SoundAt.addInputPort (hb : b.SoundAt id) {node : String} {port : PortBinding}
    {b' : Builder} (h : addInputPort node id b port = .ok b') : b'.SoundAt id := by
  obtain ⟨_, -, h⟩ := bind_eq_ok_iff.mp h
  cases h
  apply (hb.attachPort port.mapping port.nets.length .input).bindInputs
  intro q hq p hp
  obtain ⟨hle, hlt⟩ := mem_zip_range' hq
  rw [getElem?_pins_attachPort, if_neg (Nat.not_lt.mpr hle), if_pos hlt] at hp
  cases hp
  rfl

theorem SoundAt.addOutputPort (hb : b.SoundAt id) {node : String} {port : PortBinding}
    {b' : Builder} (h : addOutputPort node id b port = .ok b') : b'.SoundAt id := by
  obtain ⟨_, -, h⟩ := bind_eq_ok_iff.mp h
  refine foldlM_invariant (fun b => b.SoundAt id) ?_ (hb.attachPort _ _ .output) h
  rintro b₁ ⟨pin, net⟩ b₂ hmem hstep hb₁
  obtain ⟨hle, -⟩ := mem_zip_range' hmem
  have hpin : 2 < pin := Nat.lt_of_lt_of_le hb.powered.two_lt_pins hle
  refine ⟨hb₁.toSound.bindOutput (isConstantNet_of_two_lt hpin) hstep, ?_⟩
  rw [nodes_bindOutput hstep]
  exact hb₁.node

theorem SoundAt.addParam (hb : b.SoundAt id) {param : String × ParamDeclaration} {b' : Builder}
    (h : addParam id b param = .ok b') : b'.SoundAt id := by
  obtain ⟨value, -, h⟩ := bind_eq_ok_iff.mp h
  cases h
  refine ⟨hb.toSound.of_graph (graph_setParam _ id param.1 value), ?_⟩
  simp only [setParam, Array.size_modify]
  exact hb.node

end Ports

/-! ### Declarations -/

section Declarations

variable {b : Builder}

def withNode (b : Builder) (name : String) (kind : NodeKind) : Builder :=
  { b with
    netlist := (b.netlist.addNode name kind).2
    catalog := markModel b.catalog kind
    nodeNames := name :: b.nodeNames }

/-- The steps by which a node is added. -/
theorem addNode_eq_ok {decl : NodeDeclaration} {b' : Builder} (h : b.addNode decl = .ok b') :
    ∃ kind b₁ b₂, decl.name ∉ b.nodeNames ∧ decl.kind.toKind = .ok kind ∧
      decl.inputs.foldlM (addInputPort decl.name b.netlist.nodes.size) (b.withNode decl.name kind)
        = .ok b₁ ∧
      decl.outputs.foldlM (addOutputPort decl.name b.netlist.nodes.size) b₁ = .ok b₂ ∧
      decl.params.entries.foldlM (addParam b.netlist.nodes.size) b₂ = .ok b' := by
  unfold Builder.addNode at h
  split at h
  · cases h
  · next hname =>
    obtain ⟨kind, hkind, h⟩ := bind_eq_ok_iff.mp h
    obtain ⟨b₁, hinputs, h⟩ := bind_eq_ok_iff.mp h
    obtain ⟨b₂, houtputs, hparams⟩ := bind_eq_ok_iff.mp h
    exact ⟨kind, b₁, b₂, hname, hkind, hinputs, houtputs, hparams⟩

theorem Sound.withNode (hb : b.Sound) (name : String) (kind : NodeKind) :
    (b.withNode name kind).SoundAt b.netlist.nodes.size where
  powered := hb.powered.addNode name kind
  named := hb.named
  distinct := nodup_markModel hb.distinct kind
  node := by simp [Builder.withNode, Netlist.addNode]

theorem Sound.addNode (hb : b.Sound) {d : NodeDeclaration} {b' : Builder}
    (h : b.addNode d = .ok b') : b'.Sound := by
  obtain ⟨kind, b₁, b₂, -, -, hinputs, houtputs, hparams⟩ := addNode_eq_ok h
  have hinputs := foldlM_invariant (SoundAt · b.netlist.nodes.size)
    (fun _ _ _ _ hport hb => SoundAt.addInputPort hb hport) (hb.withNode d.name kind) hinputs
  have houtputs := foldlM_invariant (SoundAt · b.netlist.nodes.size)
    (fun _ _ _ _ hport hb => SoundAt.addOutputPort hb hport) hinputs houtputs
  have hparams := foldlM_invariant (SoundAt · b.netlist.nodes.size)
    (fun _ _ _ _ hparam hb => SoundAt.addParam hb hparam) houtputs hparams
  exact hparams.toSound

theorem Sound.addInput (hb : b.Sound) (name : String) : (b.addInput name).Sound := by
  have hsize : (b.netlist.addTopInput name).2.nets.size = b.netlist.nets.size + 1 :=
    size_nets_addTopInput name
  refine ⟨hb.powered.addTopInput name, ?_, hb.distinct⟩
  intro other w hw
  change w < (b.netlist.addTopInput name).2.nets.size
  change ((name, b.netlist.nets.size) :: b.nets).lookup other = some w at hw
  rw [hsize]
  rw [List.lookup_cons] at hw
  split at hw
  · cases hw
    exact Nat.lt_succ_self _
  · exact Nat.lt_succ_of_lt (hb.named other w hw)

theorem Sound.addOutput (hb : b.Sound) (name : String) : (b.addOutput name).Sound := by
  obtain ⟨hsound, hnet⟩ := hb.netOf name
  refine ⟨hsound.powered.attachTopOutput name hnet, ?_, hsound.distinct⟩
  intro other w hw
  change w < ((b.netOf name).2.netlist.attachTopOutput name (b.netOf name).1).2.nets.size
  rw [size_nets_attachTopOutput]
  exact hsound.named other w hw

theorem sound_first {c : Catalog} (hc : (c.models.map (·.name)).Nodup) :
    Sound { catalog := c } := by
  have hpowered : (Builder.netlist { catalog := c }).Powered := by
    dsimp only
    exact powered_initial
  refine ⟨hpowered, ?_, hc⟩
  intro name w hw
  have hsize : 2 < initial.nets.size := powered_initial.two_lt_nets
  obtain ⟨before, after, hnets, -⟩ := List.lookup_eq_some_iff.mp hw
  have hmem : (name, w) ∈ before ++ (name, w) :: after := by simp
  rw [← hnets] at hmem
  simp only [List.mem_cons, Prod.mk.injEq, List.not_mem_nil, or_false] at hmem
  have hle : w ≤ 2 := by
    rcases hmem with ⟨-, rfl⟩ | ⟨-, rfl⟩ | ⟨-, rfl⟩ <;> decide
  exact Nat.lt_of_le_of_lt hle hsize

theorem nodup_declareModels (ms : List ModelDeclaration) {c : Catalog}
    (hc : (c.models.map (·.name)).Nodup) :
    ((ms.foldl declareModel c).models.map (·.name)).Nodup := by
  induction ms generalizing c with
  | nil => exact hc
  | cons m ms ih => exact ih (nodup_declareModel hc m)

theorem Sound.addInputs (hb : b.Sound) (names : List String) :
    (names.foldl Builder.addInput b).Sound := by
  induction names generalizing b with
  | nil => exact hb
  | cons name names ih => exact ih (hb.addInput name)

theorem Sound.addOutputs (hb : b.Sound) (names : List String) :
    (names.foldl Builder.addOutput b).Sound := by
  induction names generalizing b with
  | nil => exact hb
  | cons name names ih => exact ih (hb.addOutput name)

theorem sound_start (d : CircuitDescription) : (start d).Sound :=
  (sound_first (nodup_declareModels d.models (c := {}) List.nodup_nil)).addInputs d.inputs

end Declarations

end Builder

/-- A circuit that was read from a description has a netlist whose constant nets are driven each by
its own node alone, and models of pairwise distinct names. -/
theorem CircuitDescription.sound_build {d : CircuitDescription} {circuit : Circuit}
    (h : d.build = .ok circuit) :
    circuit.netlist.Powered ∧ (circuit.catalog.models.map (·.name)).Nodup := by
  obtain ⟨b, hnodes, h⟩ := bind_eq_ok_iff.mp h
  cases h
  have hb : b.Sound := foldlM_invariant Builder.Sound (fun _ _ _ _ hnode hb => hb.addNode hnode)
    (Builder.sound_start d) hnodes
  have houtputs := hb.addOutputs d.outputs
  exact ⟨houtputs.powered, houtputs.distinct⟩

end CircuitLowering
