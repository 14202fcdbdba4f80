import CircuitLowering.Proofs.Design.Fillers
import CircuitLowering.Proofs.Emission.Bindings
import CircuitLowering.Proofs.Emission.Interfaces
import CircuitLowering.Proofs.Emission.Returns

/-!
# Fillers in the top module

The wires of the top module are those of the signals of the circuit and those that fill the buses of
instances.  A signal is added by its name wherever it is met, and a wire that has the name already is taken
for it, so a filler is told from the signals by its name alone.  Every filler whose name is not that of a
signal stands at one place of one cell and nowhere else (`fillers_of_written`).  Where a signal
has the name of a filler, the two are one wire (`filler_shorted_clashCircuit`).
-/

namespace CircuitLowering

namespace Netlist

/-! ### Signals -/

/-- The pins of one side of a node: the names under which they are bound and the bits. -/
def bindings (nl : Netlist) (n : Node) (d : Direction) : List (String × SignalBit) :=
  (Slot.cut (n.pins d) (n.sizes d)).map fun slot => (nl.bindingName slot, nl.boundBit d slot.pin)

def pinWires (nl : Netlist) (n : Node) : List String :=
  Signal.wireNames ((nl.bindings n .input).map Prod.snd) ++
    Signal.wireNames ((nl.bindings n .output).map Prod.snd)

def boundaryNames (nl : Netlist) : List String := (nl.topInputs ++ nl.topOutputs).filterMap nl.nodeName?

/-- The wires of all signals that a design of the circuit shows: its inputs and outputs, what the pins of
its primitives read and drive, and what its outputs read. -/
def signalNames (nl : Netlist) : List String :=
  nl.boundaryNames ++ ((nl.nodes.toList.filter (·.kind.isPrimitive)).flatMap nl.pinWires ++
    Signal.wireNames ((nl.outputPins nl.topOutputs).map nl.readBit))

/-- Whether no instance has a bus of one name among its inputs and among its outputs. -/
def BusesApart (nl : Netlist) : Prop :=
  ∀ n ∈ nl.nodes.toList, n.kind.isPrimitive →
    Cell.BusesApart n (nl.bindings n .input) (nl.bindings n .output)

instance (nl : Netlist) : Decidable nl.BusesApart := inferInstanceAs (Decidable (∀ n ∈ _, _ → _))

section Ties

variable (nl : Netlist) (ids : List PinId)

theorem bindings_tieAll (n : Node) (d : Direction) : (nl.tieAll ids).bindings n d = nl.bindings n d := by
  unfold bindings
  apply List.map_congr_left
  intro slot _
  have hname := nl.tieAll_keeps ids (·.bindingName slot) fun nl id => nl.bindingName_tie id slot
  have hbit := nl.tieAll_keeps ids (·.boundBit d slot.pin) fun nl id => by
    cases d with
    | input => exact nl.readBit_tie id slot.pin
    | output => exact congrArg (SignalBit.wire · 0) (nl.label_tie id slot.pin)
  exact Prod.ext hname hbit

theorem pinWires_tieAll (n : Node) : (nl.tieAll ids).pinWires n = nl.pinWires n := by
  rw [pinWires, bindings_tieAll, bindings_tieAll, pinWires]

theorem readBit_tieAll : (nl.tieAll ids).readBit = nl.readBit :=
  funext fun j => nl.tieAll_keeps ids (·.readBit j) fun nl id => nl.readBit_tie id j

end Ties

end Netlist

/-! What was settled leaves the pins of nodes and what is read at outputs as they were. -/

namespace Run.Settles

variable {r r' : Run} {read : List PinId}

theorem bindings (h : r.Settles read r') (n : Node) (d : Direction) :
    r'.netlist.bindings n d = r.netlist.bindings n d := by
  rw [h.netlist, Netlist.bindings_tieAll]

theorem pinWires (h : r.Settles read r') (n : Node) : r'.netlist.pinWires n = r.netlist.pinWires n := by
  rw [h.netlist, Netlist.pinWires_tieAll]

theorem nodeName? (h : r.Settles read r') : r'.netlist.nodeName? = r.netlist.nodeName? :=
  funext fun k => by rw [Netlist.nodeName?, h.nodes, Netlist.nodeName?]

theorem outputBits (h : r.Settles read r') (ids : List NodeId) :
    (r'.netlist.outputPins ids).map r'.netlist.readBit =
      (r.netlist.outputPins ids).map r.netlist.readBit := by
  rw [h.netlist, Netlist.outputPins_tieAll, Netlist.readBit_tieAll]

end Run.Settles

namespace Emit

open Netlist

variable {r : Run} {signals : List String} {apart : Prop}

/-! ### Nodes -/

/-- What writing the cell of a node does: nothing if the node is no primitive, and else the cell is made of
the pins of the node and added. -/
theorem emitCell_makes (c : Context) (d : Design) (m : Module) {id : NodeId} {n : Node}
    (hnl : r.netlist.Prepared c.config.traversalMark) (hn : r.netlist.nodes[id]? = some n) :
    Ends (emitCell c d m id) r
      (fun extended _ => (¬ n.kind.isPrimitive ∧ extended = none) ∨
        n.kind.isPrimitive ∧ ∃ p cell m₁ m',
          p.inputBindings = r.netlist.bindings n .input ∧
          p.outputBindings = r.netlist.bindings n .output ∧
          Cell.ofPrimitive m d n p = .ok (cell, m₁) ∧ m₁.addCell p.name cell = .ok m' ∧
          extended = some m')
      fun _ _ => True := by
  unfold emitCell
  refine Ends.bind (ends_ask ?_)
  intro n' hn'
  rw [node_eq_ok_iff, hn, Option.some.injEq] at hn'
  subst hn'
  by_cases hkind : n.kind.isPrimitive
  · rw [if_pos hkind]
    refine Ends.bind (ends_of_ok (instantiate_eq_ok hn (hnl.instantiated id n hn hkind)) ?_)
    refine Ends.bind ((assemble_ends hn).imp ?_ fun _ _ _ => trivial)
    rintro p r₁ ⟨-, hinputs, houtputs⟩
    refine Ends.bind (ends_demand fun made hmade => Ends.bind (ends_demand fun m' hm' => ?_))
    refine ends_bind_any fun _ _ => ends_pure (.inr ⟨hkind, p, made.1, made.2, m', hinputs, ?_, hmade, hm', rfl⟩)
    have hwires := congrArg (List.map fun b : String × String => (b.1, SignalBit.wire b.2 0)) houtputs
    rw [List.map_map, List.map_map] at hwires
    exact hwires
  · rw [if_neg hkind]
    exact ends_bind_any fun _ _ => ends_pure (.inl ⟨hkind, rfl⟩)

theorem wireNames_of_bindings {nl : Netlist} {n : Node} {p : Primitive}
    (hinputs : p.inputBindings = nl.bindings n .input) (houtputs : p.outputBindings = nl.bindings n .output) :
    p.wireNames = nl.pinWires n := by
  rw [pinWires, ← hinputs, ← houtputs, Primitive.inputBindings, Primitive.outputBindings, List.map_map,
    List.map_map]
  rfl

/-- The cell of a node keeps a module filled, and the wires of its pins are there. -/
theorem emitCell_filled (c : Context) (d : Design) {m : Module} {id : NodeId} {n : Node}
    (hnl : r.netlist.Prepared c.config.traversalMark) (hn : r.netlist.nodes[id]? = some n)
    (hpins : n.kind.isPrimitive → r.netlist.pinWires n ⊆ signals)
    (hapart : apart → n.kind.isPrimitive →
      Cell.BusesApart n (r.netlist.bindings n .input) (r.netlist.bindings n .output))
    (hm : m.Filled signals apart) :
    Ends (emitCell c d m id) r
      (fun extended r' => r.Settles n.pinsRead r' ∧ (extended.getD m).Filled signals apart ∧
        m.wires.names ⊆ (extended.getD m).wires.names ∧
        (n.kind.isPrimitive → r.netlist.pinWires n ⊆ (extended.getD m).wires.names))
      fun _ _ => True := by
  refine ((emitCell_makes c d m hnl hn).and (emitCell_writes c d m hnl hn)).imp ?_ fun _ _ _ => trivial
  rintro extended r' ⟨hmade, -, hsettles, -⟩
  refine ⟨hsettles, ?_⟩
  rcases hmade with ⟨hkind, rfl⟩ | ⟨hkind, p, cell, m₁, m', hinputs, houtputs, hcell, hadd, rfl⟩
  · exact ⟨hm, List.Subset.refl _, fun h => absurd h hkind⟩
  · have hwires := wireNames_of_bindings hinputs houtputs
    obtain ⟨hfilled, hgained⟩ := hm.ofPrimitive hkind (hwires ▸ hpins hkind)
      (fun h => by rw [hinputs, houtputs]; exact hapart h hkind) hcell hadd
    obtain ⟨hknown, hpinned⟩ := List.append_subset.mp hgained
    exact ⟨hfilled, hknown, fun _ => hwires ▸ hpinned⟩

theorem emitCells_filled (c : Context) (d : Design) {m : Module} {ids : List NodeId} {ns : List Node}
    (hnl : r.netlist.Prepared c.config.traversalMark)
    (hids : ids.map (r.netlist.nodes[·]?) = ns.map some)
    (hpins : ∀ n ∈ ns, n.kind.isPrimitive → r.netlist.pinWires n ⊆ signals)
    (hapart : apart → ∀ n ∈ ns, n.kind.isPrimitive →
      Cell.BusesApart n (r.netlist.bindings n .input) (r.netlist.bindings n .output))
    (hm : m.Filled signals apart) :
    Ends (emitCells c d m ids) r
      (fun m' r' => (∃ read, r.Settles read r') ∧ m'.Filled signals apart ∧
        m.wires.names ⊆ m'.wires.names ∧
        ∀ n ∈ ns, n.kind.isPrimitive → r.netlist.pinWires n ⊆ m'.wires.names)
      fun _ _ => True := by
  induction ids generalizing r m ns with
  | nil =>
    rw [List.map_nil, eq_comm, List.map_eq_nil_iff] at hids
    subst hids
    exact ends_pure ⟨⟨[], Run.settles_nil rfl rfl⟩, hm, List.Subset.refl _, nofun⟩
  | cons id ids ih =>
    cases ns with
    | nil => exact nomatch hids
    | cons n ns =>
      obtain ⟨hn, hns⟩ := List.cons.inj hids
      have hfirst := emitCell_filled c d hnl hn (hpins n List.mem_cons_self)
        (fun h => hapart h n List.mem_cons_self) hm
      refine Ends.bind (hfirst.imp ?_ fun _ _ _ => trivial)
      rintro extended r₁ ⟨hsettles, hfilled, hknown, hgained⟩
      have hrest := ih (r := r₁) (hsettles.netlist ▸ hnl.tieAll _) (hsettles.nodes ▸ hns)
        (fun n hn hkind => hsettles.pinWires n ▸ hpins n (List.mem_cons_of_mem _ hn) hkind)
        (fun h n hn hkind => by
          rw [hsettles.bindings, hsettles.bindings]
          exact hapart h n (List.mem_cons_of_mem _ hn) hkind) hfilled
      refine hrest.imp ?_ fun _ _ _ => trivial
      rintro m' r₂ ⟨⟨read, hread⟩, hfilled', hknown', hgained'⟩
      refine ⟨⟨_, hsettles.trans hread⟩, hfilled', List.Subset.trans hknown hknown', ?_⟩
      intro n' hn' hkind
      rcases List.mem_cons.mp hn' with rfl | hn'
      · exact List.Subset.trans (hgained hkind) hknown'
      · exact hsettles.pinWires n' ▸ hgained' n' hn' hkind

/-! ### Outputs of the circuit -/

theorem resolveOutput_ends (output : Node) :
    Ends (resolveOutput output) r
      (fun d r' => ∃ pin, output.inputs.head? = some pin ∧ d.bit = r.netlist.readBit pin ∧
        r.Settles [pin] r')
      fun _ _ => True := by
  unfold resolveOutput
  cases hinputs : output.inputs with
  | nil => exact ends_fault
  | cons pin rest =>
    refine (resolve_ends pin).imp ?_ fun _ _ _ => trivial
    rintro d r' ⟨hreading, hsettles, -⟩
    exact ⟨pin, rfl, by rw [readBit, hreading], hsettles⟩

theorem joinOutputs_filled {m : Module} {ids : List NodeId}
    (hnames : ids.filterMap r.netlist.nodeName? ⊆ signals)
    (hread : Signal.wireNames ((r.netlist.outputPins ids).map r.netlist.readBit) ⊆ signals)
    (hm : m.Filled signals apart) :
    Ends (joinOutputs m ids) r
      (fun m' _ => m'.Filled signals apart ∧ m.wires.names ⊆ m'.wires.names ∧
        Signal.wireNames ((r.netlist.outputPins ids).map r.netlist.readBit) ⊆ m'.wires.names)
      fun _ _ => True := by
  induction ids generalizing r m with
  | nil => exact ends_pure ⟨hm, List.Subset.refl _, List.nil_subset _⟩
  | cons id ids ih =>
    refine Ends.bind (ends_ask ?_)
    intro output houtput
    rw [node_eq_ok_iff] at houtput
    refine Ends.bind ((resolveOutput_ends output).imp ?_ fun _ _ _ => trivial)
    rintro driver r₁ ⟨pin, hpin, hbit, hsettles⟩
    have hpins : r.netlist.outputPins (id :: ids) = pin :: r.netlist.outputPins ids := by
      rw [outputPins_cons, houtput, Option.bind_some, hpin]
      rfl
    have houtputs : (id :: ids).filterMap r.netlist.nodeName? =
        output.name :: ids.filterMap r.netlist.nodeName? := by
      rw [List.filterMap_cons, nodeName?, houtput]
      rfl
    rw [hpins, List.map_cons, ← hbit, Signal.wireNames_cons] at hread ⊢
    rw [houtputs] at hnames
    obtain ⟨hname, hnames⟩ := List.cons_subset.mp hnames
    obtain ⟨hdriver, hread⟩ := List.append_subset.mp hread
    obtain ⟨hm₁, hknown, hgained⟩ := hm.driverBit hdriver
    have hfst := m.driverBit_fst driver
    generalize m.driverBit driver = joined at hm₁ hknown hgained hfst ⊢
    obtain ⟨bit, m₁⟩ := joined
    dsimp only at hm₁ hknown hgained hfst ⊢
    -- the outputs that follow are joined in a module with the wires of this one
    have hrest {m₂ : Module} (hm₂ : m₂.Filled signals apart) (hwires : m₂.wires = m₁.wires) :
        Ends (joinOutputs m₂ ids) r₁
          (fun m' _ => m'.Filled signals apart ∧ m.wires.names ⊆ m'.wires.names ∧
            Signal.wireNames [driver.bit] ++
              Signal.wireNames ((r.netlist.outputPins ids).map r.netlist.readBit) ⊆ m'.wires.names)
          fun _ _ => True := by
      have hbits := hsettles.outputBits ids
      have hlater := ih (r := r₁) (hsettles.nodeName? ▸ hnames) (hbits ▸ hread) hm₂
      rw [hbits, hwires] at hlater
      refine hlater.imp ?_ fun _ _ _ => trivial
      rintro m' r₂ ⟨hfilled, hm', hgained'⟩
      refine ⟨hfilled, List.Subset.trans hknown hm', List.append_subset.mpr ⟨?_, hgained'⟩⟩
      exact List.Subset.trans hgained hm'
    split
    · exact Ends.bind (ends_pure (hrest hm₁ rfl))
    · refine Ends.bind (ends_demand fun m₂ hm₂ => hrest ?_ (Module.wires_connect hm₂))
      refine hm₁.connect ?_ ?_ hm₂
      · exact List.cons_subset.mpr ⟨hname, List.nil_subset _⟩
      · rw [hfst]
        exact hdriver

/-! ### Whole circuits -/

theorem filterMap_of_map {ids : List NodeId} {f : NodeId → Option String} {names : List String}
    (h : ids.map f = names.map some) : ids.filterMap f = names := by
  have hnames := congrArg (List.filterMap id) h
  rw [List.filterMap_map, List.filterMap_map] at hnames
  simpa using hnames

/-- What a module with the ports of the circuit becomes: the cells are added, the outputs are joined, and the
ports are numbered. -/
theorem writeTop_filled (c : Context) (d : Design) {inputs outputs : List String}
    (hprepared : r.netlist.Prepared c.config.traversalMark)
    (hboundary : r.netlist.boundaryNames = inputs ++ outputs) :
    Ends (do
      let m ← emitCells c d (addBoundary .output (addBoundary .input {} inputs) outputs)
        (List.range r.netlist.nodes.size)
      joinOutputs m r.netlist.topOutputs) r
      (fun m _ => m.Filled r.netlist.signalNames r.netlist.BusesApart ∧
        r.netlist.signalNames ⊆ m.wires.names)
      fun _ _ => True := by
  -- the three parts that the signals come from
  obtain ⟨hports, hsignals⟩ := List.append_subset.mp (List.Subset.refl r.netlist.signalNames)
  obtain ⟨hpins, hread⟩ := List.append_subset.mp hsignals
  rw [hboundary] at hports
  obtain ⟨hinputs, houtputs⟩ := List.append_subset.mp hports
  have hpinned : ∀ n ∈ r.netlist.nodes.toList, n.kind.isPrimitive →
      r.netlist.pinWires n ⊆ r.netlist.signalNames := by
    intro n hn hkind x hx
    exact hpins (List.mem_flatMap.mpr ⟨n, List.mem_filter.mpr ⟨hn, hkind⟩, hx⟩)
  have hstart := ((Module.filled_empty r.netlist.signalNames r.netlist.BusesApart).sameBut
    (Module.sameBut_foldl_addPort (List.Subset.refl _) {} .input) hinputs).sameBut
      (Module.sameBut_foldl_addPort (List.Subset.refl _) _ .output) houtputs
  refine Ends.bind ((emitCells_filled c d hprepared (map_range_nodes r.netlist) hpinned
    (fun h => h) hstart).imp ?_ fun _ _ _ => trivial)
  rintro m₁ r₁ ⟨⟨read, hsettles⟩, hfilled, hknown, hgained⟩
  have hbits := hsettles.outputBits r.netlist.topOutputs
  have hnames : r.netlist.topOutputs.filterMap r₁.netlist.nodeName? ⊆ r.netlist.signalNames := by
    rw [hsettles.nodeName?]
    apply List.Subset.trans _ (List.subset_append_left r.netlist.boundaryNames _)
    rw [boundaryNames, List.filterMap_append]
    exact List.subset_append_right _ _
  have hjoined := joinOutputs_filled hnames (hbits ▸ hread) hfilled
  rw [hbits] at hjoined
  refine hjoined.imp ?_ fun _ _ _ => trivial
  rintro m₂ r₂ ⟨hfilled', hknown', hgained'⟩
  refine ⟨hfilled', ?_⟩
  -- the ports were there first, then came the wires of the pins, then those of the outputs
  have hinputs' : inputs ⊆ m₁.wires.names := by
    apply List.Subset.trans _ hknown
    apply List.Subset.trans (Module.subset_foldl_addPort {} .input inputs)
    exact (Module.sameBut_foldl_addPort (List.Subset.refl _) _ .output).known
  have houtputs' : outputs ⊆ m₁.wires.names :=
    List.Subset.trans (Module.subset_foldl_addPort _ .output outputs) hknown
  have hpinned' : (r.netlist.nodes.toList.filter (·.kind.isPrimitive)).flatMap r.netlist.pinWires ⊆
      m₁.wires.names := by
    intro x hx
    obtain ⟨n, hn, hx⟩ := List.mem_flatMap.mp hx
    obtain ⟨hn, hkind⟩ := List.mem_filter.mp hn
    exact hgained n hn hkind hx
  rw [signalNames, hboundary]
  apply List.append_subset.mpr
  constructor
  · exact List.Subset.trans (List.append_subset.mpr ⟨hinputs', houtputs'⟩) hknown'
  · exact List.append_subset.mpr ⟨List.Subset.trans hpinned' hknown', hgained'⟩

/-- The top module of a circuit is filled, and it has the wires of all signals. -/
theorem buildDesign_filled (c : Context) (hnl : r.netlist.CrossReferenced) :
    Ends (buildDesign c) r
      (fun design _ => ∃ m, design.module? c.config.topModule = some m ∧
        m.Filled (r.netlist.instantiateAll c.config.traversalMark).signalNames
          (r.netlist.instantiateAll c.config.traversalMark).BusesApart ∧
        (r.netlist.instantiateAll c.config.traversalMark).signalNames ⊆ m.wires.names)
      fun _ _ => True := by
  have hprepared := hnl.prepared c.config.traversalMark
  unfold buildDesign
  refine Ends.bind (ends_modifyNetlist (Ends.bind (ends_get (ends_tell_bind_any ?_))))
  intro r₀ hr₀
  dsimp only at hr₀ ⊢
  rw [← hr₀] at hprepared ⊢
  refine Ends.bind (ends_modifyReport (Ends.bind ?_))
  refine Ends.imp (addBlackboxes_reads c) ?_ fun _ _ _ => trivial
  rintro ⟨d, clash⟩ r₁ ⟨-, hr₁, -⟩
  have hnetlist : r₁.netlist = r₀.netlist := hr₁.netlist
  cases clash with
  | some name => exact Ends.bind (ends_fail trivial)
  | none =>
    rw [← hnetlist] at hprepared ⊢
    refine Ends.bind ((names_ends _).imp ?_ fun _ _ _ => trivial)
    intro inputs r₂ hend
    obtain ⟨rfl, hinputs⟩ := hend
    refine Ends.bind ((names_ends _).imp ?_ fun _ _ _ => trivial)
    intro outputs r₃ hend
    obtain ⟨rfl, houtputs⟩ := hend
    have hboundary : r₃.netlist.boundaryNames = inputs ++ outputs := by
      rw [boundaryNames, List.filterMap_append, filterMap_of_map hinputs, filterMap_of_map houtputs]
    rw [← bind_assoc]
    refine Ends.bind ((writeTop_filled c d hprepared hboundary).imp ?_ fun _ _ _ => trivial)
    rintro m r₄ ⟨hfilled, hsignals⟩
    refine Ends.bind ((insertModule_module? d c.config.topModule _).imp ?_ fun _ _ _ => trivial)
    intro design r₅ hdesign
    refine ends_pure ⟨_, hdesign, hfilled.numberPorts, ?_⟩
    rw [m.names_numberPorts]
    exact hsignals

end Emit

/-! ### Circuits that are written -/

/-- The fillers of a circuit that was read from a description.  The top module has the wires of all signals,
and every other wire fills a place: it has a fresh name, one bit and no direction, no connection of the
module joins it, and it stands at no more than one bit of all connections of all cells, at exactly one where
no bus of an output is bound over one of an input. -/
theorem fillers_of_written {d : CircuitDescription} {circuit : Circuit} (hbuild : d.build = .ok circuit)
    (c : Context) {r r' : Run} (hr : r.netlist = circuit.netlist) {design : Design}
    (h : Emit.buildDesign c r = .ok design r') :
    ∃ m, design.module? c.config.topModule = some m ∧
      (circuit.netlist.instantiateAll c.config.traversalMark).signalNames ⊆ m.wires.names ∧
      ∀ x ∈ m.wires.names, x ∉ (circuit.netlist.instantiateAll c.config.traversalMark).signalNames →
        (∃ k, x = Module.freshName k) ∧ m.wires.get? x = some { width := 1 } ∧ x ∉ m.joinedWires ∧
        m.boundWires.count x ≤ 1 ∧
        ((circuit.netlist.instantiateAll c.config.traversalMark).BusesApart →
          m.boundWires.count x = 1) := by
  have hcross : r.netlist.CrossReferenced :=
    hr ▸ (CircuitDescription.sound_build hbuild).1.toCrossReferenced
  obtain ⟨m, hm, hfilled, hsignals⟩ := (Emit.buildDesign_filled c hcross).of_ok h
  rw [hr] at hfilled hsignals
  refine ⟨m, hm, hsignals, ?_⟩
  intro x hx hnone
  have hnames : m.wires.names.count x = 1 := List.count_eq_one_of_mem m.wires.nodup_names hx
  obtain ⟨hname, hwire⟩ := hfilled.fresh x hx hnone
  refine ⟨hname, hwire, hfilled.joined x hnone, ?_, ?_⟩
  · exact hnames ▸ hfilled.bound x hnone
  · exact fun hapart => (hfilled.boundApart hapart x hnone).trans hnames

/-- A block whose model has a wider port than the block has pins. -/
def narrowBlock : NodeDeclaration where
  name := "u"
  kind := .hardBlock "m"
  inputs := [{ mapping := "a", nets := [some "x", some "y"] }]
  outputs := [{ mapping := "o", nets := [some "p"] }]

/-- A circuit of that block and a gate whose output has the given name. -/
def fillerDescription (output : String) : CircuitDescription where
  models := [{ name := "m", inputs := [⟨"a", 3⟩], outputs := [⟨"o", 1⟩] }]
  inputs := ["x", "y"]
  nodes := [
    narrowBlock,
    { name := "v", kind := .reduceOr, inputs := [{ mapping := "A", nets := [some "x"] }],
      outputs := [{ mapping := "Y", nets := [some output] }] }]

def fillerCircuit (output : String) : Circuit :=
  (fillerDescription output).build.toOption.getD ⟨none, {}, {}⟩

/-- The filler of the block stands at one place of all cells and in no connection of the module. -/
theorem fillers_fillerCircuit :
    (fillerDescription "q").build = .ok (fillerCircuit "q") ∧
      ((fillerCircuit "q").netlist.instantiateAll 1).BusesApart ∧
      ∃ design r' m, Emit.buildDesign (.new (fillerCircuit "q").catalog {})
          { netlist := (fillerCircuit "q").netlist } = .ok design r' ∧
        design.module? "top" = some m ∧ "$auto$0" ∈ m.wires.names ∧
        "$auto$0" ∉ m.joinedWires ∧ m.boundWires.count "$auto$0" = 1 := by
  have hbuild : (fillerDescription "q").build = .ok (fillerCircuit "q") :=
    eq_ok_getD (by decide +kernel) _
  have hapart : ((fillerCircuit "q").netlist.instantiateAll 1).BusesApart := by decide +kernel
  have hnone : "$auto$0" ∉ ((fillerCircuit "q").netlist.instantiateAll 1).signalNames := by
    decide +kernel
  have hwires : (Emit.answer (Emit.buildDesign (.new (fillerCircuit "q").catalog {}))
      { netlist := (fillerCircuit "q").netlist }).toOption.map (fun design =>
        (design.module? "top").map fun m => decide ("$auto$0" ∈ m.wires.names)) =
        some (some true) := by decide +kernel
  have hr : Run.netlist { netlist := (fillerCircuit "q").netlist } = (fillerCircuit "q").netlist := by
    dsimp only
  obtain ⟨design, r', hdesign, hmodule⟩ := Emit.exists_of_answer hwires
  obtain ⟨m, hm, -, hfillers⟩ := fillers_of_written hbuild (.new (fillerCircuit "q").catalog {}) hr hdesign
  change design.module? "top" = some m at hm
  rw [hm, Option.map_some, Option.some.injEq, decide_eq_true_iff] at hmodule
  obtain ⟨-, -, hjoined, -, hcount⟩ := hfillers "$auto$0" hmodule hnone
  exact ⟨hbuild, hapart, design, r', m, hdesign, hm, hmodule, hjoined, hcount hapart⟩

/-- The third bit of the input of the block is a filler.  The output of the gate has its name, and so the
gate drives the block. -/
theorem filler_shorted_clashCircuit :
    (fillerDescription "$auto$0").build = .ok (fillerCircuit "$auto$0") ∧
      ∃ design r' m u v, Emit.buildDesign (.new (fillerCircuit "$auto$0").catalog {})
          { netlist := (fillerCircuit "$auto$0").netlist } = .ok design r' ∧
        design.module? "top" = some m ∧ m.cells.get? "u" = some u ∧ m.cells.get? "v" = some v ∧
        (u.ports.get? "a").map (·.signal) = some [.wire "x" 0, .wire "y" 0, .wire "$auto$0" 0] ∧
        (v.ports.get? "Y").map (·.signal) = some [.wire "$auto$0" 0] ∧
        m.boundWires.count "$auto$0" = 2 := by
  refine ⟨eq_ok_getD (by decide +kernel) _, ?_⟩
  have hbuilt : (Emit.answer (Emit.buildDesign (.new (fillerCircuit "$auto$0").catalog {}))
      { netlist := (fillerCircuit "$auto$0").netlist }).toOption.map (fun design =>
        (design.module? "top").bind fun m => (m.cells.get? "u").bind fun u =>
          (m.cells.get? "v").map fun v =>
            ((u.ports.get? "a").map (·.signal), (v.ports.get? "Y").map (·.signal),
              m.boundWires.count "$auto$0")) =
        some (some (some [.wire "x" 0, .wire "y" 0, .wire "$auto$0" 0],
          some [.wire "$auto$0" 0], 2)) := by decide +kernel
  obtain ⟨design, r', hdesign, hfields⟩ := Emit.exists_of_answer hbuilt
  obtain ⟨m, hm, hfields⟩ := Option.bind_eq_some_iff.mp hfields
  obtain ⟨u, hu, hfields⟩ := Option.bind_eq_some_iff.mp hfields
  obtain ⟨v, hv, hfields⟩ := Option.map_eq_some_iff.mp hfields
  simp only [Prod.mk.injEq] at hfields
  obtain ⟨hblock, hgate, hcount⟩ := hfields
  exact ⟨design, r', m, u, v, hdesign, hm, hu, hv, hblock, hgate, hcount⟩

end CircuitLowering
