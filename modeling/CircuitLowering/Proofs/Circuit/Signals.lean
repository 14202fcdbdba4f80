import CircuitLowering.Proofs.Circuit.Interface

/-!
# Names of signals

A signal is known by the name of the pin that drives it.  An output that is given the net of a name gets
that name too, and one that is given none drives a net that nothing else reaches.  So an output has the
name of its net, and a net that is read is one that a name denotes; since a name denotes one net, no two
nets that are read have one name (`CircuitDescription.signals_of_build`).

The names of the constant nets are names like others, and an input of the circuit may take one over.
The open net is read all the same, by the inputs that are given no net, and would then share its name
with the input.
-/

namespace CircuitLowering

open Netlist

/-- Whether the names of a netlist tell its signals apart. -/
structure Netlist.Signals (nl : Netlist) : Prop where
  /-- An output has the name of its net, or none if the net has none. -/
  driven : ∀ (id : PinId) (p : Pin) (w : NetId), nl.pins[id]? = some p → p.direction = .output →
    p.net = some w → nl.netName? w = some p.name
  /-- A net that is read has a name. -/
  named : ∀ (id : PinId) (p : Pin) (w : NetId), nl.pins[id]? = some p → p.direction = .input →
    p.net = some w → ∃ name, nl.netName? w = some (some name)
  /-- Nets that are read have different names. -/
  apart : ∀ (id id' : PinId) (p p' : Pin) (w w' : NetId), nl.pins[id]? = some p →
    nl.pins[id']? = some p' → p.direction = .input → p'.direction = .input → p.net = some w →
    p'.net = some w' → nl.netName? w = nl.netName? w' → w = w'

/-- A port of one pin leaves the other pins alone. -/
theorem getElem?_pins_attachPort_of_ne (nl : Netlist) (node : NodeId) (mapping : String)
    (d : Direction) {id : PinId} (hid : id ≠ nl.pins.size) :
    (nl.attachPort node mapping 1 d).2.pins[id]? = nl.pins[id]? := by
  rw [getElem?_pins_attachPort]
  split
  · rfl
  · next hge =>
    have hle : nl.pins.size ≤ id := Nat.not_lt.mp hge
    rw [if_neg fun hlt => hid (Nat.le_antisymm (Nat.le_of_lt_succ hlt) hle),
      Array.getElem?_eq_none hle]

namespace Builder

/-- Whether a pin fits the names of a builder: an input reads a net that a name denotes, and an output
has the name of its net. -/
def Fits (b : Builder) (p : Pin) : Prop :=
  ∀ w, p.net = some w → match p.direction with
    | .input => ∃ name, b.nets.lookup name = some w
    | .output => b.netlist.netName? w = some p.name

structure Fitting (b : Builder) : Prop where
  pad : b.nets.lookup padName = some padNet
  fits : ∀ (id : PinId) (p : Pin), b.netlist.pins[id]? = some p → b.Fits p

section Fitting

variable {b b' : Builder} {old : NodeId → Prop} {n : Nat} {p : Pin}

theorem Fits.extends (h : b.Fits p) (hgrown : Extends old n b b') : b'.Fits p := by
  intro w hw
  have hold := h w hw
  cases hdirection : p.direction with
  | input =>
    rw [hdirection] at hold
    obtain ⟨name, hname⟩ := hold
    exact ⟨name, hgrown.lookup name w hname⟩
  | output =>
    rw [hdirection] at hold
    exact hgrown.netName w p.name hold

theorem Assigned.fits {node : NodeId} {mapping : String} {d : Direction} {id : PinId}
    {name? : Option String} (h : b.Assigned node mapping d id name?) (hb : b.Labelled)
    (hpad : b.nets.lookup padName = some padNet) (hp : b.netlist.pins[id]? = some p) : b.Fits p := by
  obtain ⟨w, hpin, hw⟩ := h
  cases hp.symm.trans hpin
  intro w' hw'
  cases hw'
  cases d with
  | input =>
    cases name? with
    | some name => exact ⟨name, hw⟩
    | none =>
      have hopen : w = padNet := hw
      exact ⟨padName, hopen ▸ hpad⟩
  | output =>
    cases name? with
    | some name => exact hb.table name w hw
    | none => exact hw.1

/-- A builder stays fitting if the pins that it gets fit. -/
theorem Fitting.extends (hb : b.Fitting) (hgrown : Extends old n b b')
    (hpins : ∀ (id : PinId) (p : Pin), b'.netlist.pins[id]? = some p →
      b.netlist.pins[id]? = some p ∨ b'.Fits p) : b'.Fitting where
  pad := hgrown.lookup padName padNet hb.pad
  fits id p hp := by
    rcases hpins id p hp with hold | hnew
    · exact (hb.fits id p hold).extends hgrown
    · exact hnew

/-! ### Nodes and outputs of the circuit -/

theorem Fitting.addsPort (hb : b.Fitting) {id : NodeId} {d : Direction} {port : PortBinding}
    (h : AddsPort id d port b b') : b'.Fitting := by
  refine hb.extends h.grown fun pin p hp => (h.pins pin p hp).imp_right ?_
  rintro ⟨name?, hassigned⟩
  exact hassigned.fits h.labelled (h.grown.lookup padName padNet hb.pad) hp

theorem Fitting.addNode (hb : b.Fitting) (hlabelled : b.Labelled) {decl : NodeDeclaration}
    (h : b.addNode decl = .ok b') : b'.Fitting := by
  obtain ⟨kind, b₁, b₂, -, -, hinputs, houtputs, hparams⟩ := addNode_eq_ok h
  let P (b' : Builder) : Prop :=
    b'.Labelled ∧ b.netlist.nodes.size < b'.netlist.nodes.size ∧ b'.Fitting
  have hfirst : P (b.withNode decl.name kind) :=
    ⟨hlabelled.withNode decl.name kind, size_nodes_lt_addNode b.netlist decl.name kind,
      ⟨hb.pad, hb.fits⟩⟩
  have hport {d : Direction} {port : PortBinding} {b₁ b₂ : Builder} (hb₁ : P b₁)
      (hadds : AddsPort b.netlist.nodes.size d port b₁ b₂) : P b₂ :=
    ⟨hadds.labelled, hadds.grown.size ▸ hb₁.2.1, hb₁.2.2.addsPort hadds⟩
  have hinputs : P b₁ := foldlM_invariant P
    (fun _ _ _ _ hstep hb₁ => hport hb₁ (hb₁.1.addInputPort hb₁.2.1 hstep)) hfirst hinputs
  have houtputs : P b₂ := foldlM_invariant P
    (fun _ _ _ _ hstep hb₁ => hport hb₁ (hb₁.1.addOutputPort hb₁.2.1 hstep)) hinputs houtputs
  refine foldlM_invariant Fitting ?_ houtputs.2.2 hparams
  intro b₁ param b₂ _ hparam hb₁
  obtain ⟨value, -, hparam⟩ := bind_eq_ok_iff.mp hparam
  cases hparam
  exact ⟨hb₁.pad, hb₁.fits⟩

theorem Fitting.addOutput (hb : b.Fitting) (hlabelled : b.Labelled) (name : String) :
    (b.addOutput name).Fitting := by
  have hgrown := (hlabelled.addOutput name).grown
  obtain ⟨-, -, hlookup⟩ := hlabelled.netOf (fun _ => True) name
  have hsame : (b.netOf name).2.netlist.pins = b.netlist.pins := pins_netOf name
  let nl := ((b.netOf name).2.netlist.addNode name .output).2
  have hnew := getElem?_pins_newPin nl (b.netOf name).2.netlist.nodes.size name .input
  have hpins := pins_connect_of_eq (b.netOf name).1 hnew
  have hold (id : PinId) (hid : id ≠ nl.pins.size) :=
    getElem?_pins_attachPort_of_ne nl (b.netOf name).2.netlist.nodes.size name .input hid
  refine ⟨hgrown.lookup padName padNet hb.pad, fun id p hp => ?_⟩
  rw [addOutput_eq] at hp ⊢
  have hp := (hpins id).symm.trans hp
  split at hp
  · cases hp
    intro w hw
    cases hw
    exact ⟨name, hlookup⟩
  · next hid =>
    have hp := ((hold id hid).trans (congrArg (·[id]?) hsame)).symm.trans hp
    rw [← addOutput_eq]
    change ((b.addOutput name).withOutputs b.netlist.topOutputs).Fits p
    exact (hb.fits id p hp).extends hgrown

/-! ### Inputs of the circuit -/

structure Sourced (b : Builder) : Prop where
  pad : b.nets.lookup padName = some padNet
  sources : ∀ (id : PinId) (p : Pin), b.netlist.pins[id]? = some p → p.direction = .output ∧
    ∀ w, p.net = some w → b.netlist.netName? w = some p.name

theorem Sourced.fitting (hb : b.Sourced) : b.Fitting where
  pad := hb.pad
  fits id p hp w hw := by
    obtain ⟨houtput, hname⟩ := hb.sources id p hp
    rw [houtput]
    exact hname w hw

theorem sourced_first (hnetlist : b.netlist = initial) (hnets : b.nets = constantNets) :
    b.Sourced where
  pad := by
    rw [hnets]
    decide
  sources id p hp := by
    have hall : ∀ p ∈ initial.pins.toList, p.direction = .output ∧
        p.net.all fun w => initial.netName? w = some p.name := by decide +kernel
    rw [hnetlist] at hp ⊢
    have hmem : p ∈ initial.pins.toList := Array.mem_toList_iff.mpr (Array.mem_of_getElem? hp)
    obtain ⟨houtput, hname⟩ := hall p hmem
    refine ⟨houtput, fun w hw => ?_⟩
    rw [hw] at hname
    simpa using hname

theorem Sourced.addInput (hb : b.Sourced) (hlabelled : b.Labelled) {name : String}
    (hname : name ≠ padName) : (b.addInput name).Sourced := by
  obtain ⟨hgrown, -, hnet, -, hpin⟩ := hlabelled.addSource name
  have hold {id : PinId} (hid : id ≠ b.netlist.pins.size) :
      (b.netlist.addSource name .input).2.2.pins[id]? = b.netlist.pins[id]? := by
    let nl := ((b.netlist.addNode name .input).2.addNet (some name)).2
    have hattach := getElem?_pins_attachPort_of_ne nl b.netlist.nodes.size name .output hid
    rw [addSource_eq, getElem?_pins_connect, if_neg hid, getElem?_pins_setPinName,
      if_neg (Ne.symm hid)]
    exact hattach
  rw [addInput_eq]
  generalize (b.netlist.addSource name .input).2.2 = nl at hgrown hnet hpin hold
  constructor
  · exact (lookup_cons_eq padName name _ b.nets).trans ((if_neg (Ne.symm hname)).trans hb.pad)
  · intro id p hp
    change nl.pins[id]? = some p at hp
    by_cases hid : id = b.netlist.pins.size
    · subst hid
      cases hp.symm.trans hpin
      refine ⟨rfl, fun w hw => ?_⟩
      cases hw
      exact hnet
    · obtain ⟨houtput, hnames⟩ := hb.sources id p ((hold hid).symm.trans hp)
      exact ⟨houtput, fun w hw => hgrown.netName w p.name (hnames w hw)⟩

/-- The inputs come before there is a pin that reads a net, so it does no harm that they take names
over. -/
theorem fitting_start {d : CircuitDescription} (hpad : padName ∉ d.inputs) : (start d).Fitting := by
  have hstart : (start d).Sourced := by
    refine start_keeps d (fun b => sourced_first) ?_
    intro b name hlabelled hname hb
    refine hb.addInput hlabelled fun heq => hpad ?_
    rwa [heq] at hname
  exact hstart.fitting

end Fitting

end Builder

/-- Where no input of the circuit is called like the open net, the names of a circuit that was read from
a description tell its signals apart. -/
theorem CircuitDescription.signals_of_build {d : CircuitDescription} {circuit : Circuit}
    (hpad : padName ∉ d.inputs) (h : d.build = .ok circuit) : circuit.netlist.Signals := by
  obtain ⟨b, hlabelled, hb, hnetlist⟩ := Builder.build_keeps h (Builder.fitting_start hpad)
    (fun b decl b' hlabelled hb hadd => hb.addNode hlabelled hadd)
    fun b name hlabelled hb => hb.addOutput hlabelled name
  rw [← hnetlist]
  have hread {id : PinId} {p : Pin} {w : NetId} (hp : b.netlist.pins[id]? = some p)
      (hinput : p.direction = .input) (hw : p.net = some w) :
      ∃ name, b.nets.lookup name = some w ∧ b.netlist.netName? w = some (some name) := by
    have hfits := hb.fits id p hp w hw
    rw [hinput] at hfits
    obtain ⟨name, hname⟩ := hfits
    exact ⟨name, hname, hlabelled.table name w hname⟩
  refine ⟨?_, ?_, ?_⟩
  · intro id p w hp houtput hw
    have hfits := hb.fits id p hp w hw
    rw [houtput] at hfits
    exact hfits
  · intro id p w hp hinput hw
    obtain ⟨name, -, hname⟩ := hread hp hinput hw
    exact ⟨name, hname⟩
  · intro id id' p p' w w' hp hp' hinput hinput' hw hw' hsame
    obtain ⟨name, hlookup, hname⟩ := hread hp hinput hw
    obtain ⟨name', hlookup', hname'⟩ := hread hp' hinput' hw'
    have heq : name = name' := by simpa [hname, hname'] using hsame
    subst heq
    exact Option.some.inj (hlookup.symm.trans hlookup')

end CircuitLowering
