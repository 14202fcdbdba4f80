import CircuitLowering.Proofs.Blif.Products
import CircuitLowering.Proofs.Circuit.Interface
import CircuitLowering.Proofs.Emission.Returns
import CircuitLowering.Proofs.Emission.Settled
import CircuitLowering.Proofs.Emission.Verdict

/-!
# How writing BLIF can fail

A circuit that was read from a description has all that the writers rely on: its references are not
dangling, its ports are cut as the pins are, and its outputs have pins to be read
(`Netlist.Ready`).  So there are few ways left in which writing it in BLIF can end without a text, and
`Circuit.BlifFailure` lists them: an error of the circuit, a primitive with no pins in its first ports,
and rows or names that are too many for memory.
-/

namespace CircuitLowering

open Netlist

/-- A netlist as the writers come to its nodes and outputs, with nothing missing that they rely on. -/
structure Netlist.Ready (nl : Netlist) (mark : UInt16) : Prop where
  wired : nl.Wired
  prepared : nl.Prepared mark
  accessible : nl.Accessible

/-- Whether the writers of a circuit declare a model: it is not reserved, and it is used or the model of
a hard block that is written. -/
structure Netlist.Declares (nl : Netlist) (m : Model) : Prop where
  free : Catalog.isReserved m = false
  wanted : m.used ∨ ∃ n ∈ nl.nodes.toList, n.kind.isPrimitive ∧ n.kind = .hardBlock m.name

section Ready

variable {nl nl' : Netlist} {mark : UInt16}

theorem Netlist.Accessible.of_graph (hnl : nl.Accessible) (h : nl'.graph = nl.graph) :
    nl'.Accessible := by
  have hpins : nl'.pinsOfNode = nl.pinsOfNode := by
    rw [← pinsOfNode_graph, h, pinsOfNode_graph]
  constructor
  · intro k hk
    rw [topInputs_of_graph h] at hk
    have hnode := map_nodes_of_graph h (fun _ => ()) (fun _ => rfl) k
    rw [Array.getElem?_eq_getElem (hnl.inputs k hk)] at hnode
    obtain ⟨n, hn, -⟩ := Option.map_eq_some_iff.mp hnode
    exact (Array.getElem?_eq_some_iff.mp hn).1
  · intro k hk
    rw [topOutputs_of_graph h] at hk
    rw [hpins]
    exact hnl.outputs k hk

theorem Netlist.Accessible.tieAll (hnl : nl.Accessible) (ids : List PinId) :
    (nl.tieAll ids).Accessible := by
  have htopInputs : (nl.tieAll ids).topInputs = nl.topInputs :=
    tieAll_keeps nl ids (·.topInputs) fun nl id => nl.topInputs_tie id
  constructor
  · rw [htopInputs, nodes_tieAll]
    exact hnl.inputs
  · rw [topOutputs_tieAll]
    simpa only [pinsOfNode, nodes_tieAll] using hnl.outputs

theorem Netlist.Accessible.lt_of_output (hnl : nl.Accessible) {k : NodeId} (hk : k ∈ nl.topOutputs) :
    k < nl.nodes.size := by
  by_contra hlt
  refine hnl.outputs k hk ?_
  rw [pinsOfNode, Array.getElem?_eq_none (Nat.not_lt.mp hlt)]
  rfl

theorem Netlist.Ready.tieAll (hnl : nl.Ready mark) (ids : List PinId) : (nl.tieAll ids).Ready mark where
  wired := hnl.wired.tieAll ids
  prepared := hnl.prepared.tieAll ids
  accessible := hnl.accessible.tieAll ids

theorem Run.Settles.ready {r r' : Run} {ids : List PinId} (h : r.Settles ids r')
    (hr : r.netlist.Ready mark) : r'.netlist.Ready mark := by
  rw [h.netlist]
  exact hr.tieAll ids

theorem CircuitDescription.ready_of_build {d : CircuitDescription} {circuit : Circuit}
    (h : d.build = .ok circuit) (mark : UInt16) : (circuit.netlist.instantiateAll mark).Ready mark := by
  have hgraph := circuit.netlist.graph_instantiateAll mark
  have hpowered := (sound_build h).1
  constructor
  · have hwired : circuit.netlist.Wired := ⟨hpowered.toCrossReferenced, hpowered.two_lt_nets⟩
    exact hwired.of_graph hgraph
  · exact hpowered.toCrossReferenced.prepared mark
  · exact (accessible_of_build h).of_graph hgraph

end Ready

namespace Emit

variable {r : Run} {P : Failure → Prop} {c : Context}

/-! ### Nodes -/

theorem stops_emitBlifAll (hP : ∀ e, P (.error e)) (text : String) {ids : List NodeId}
    {ns : List Node} (hr : r.netlist.Ready c.config.traversalMark)
    (hids : ids.map (r.netlist.nodes[·]?) = ns.map some) (hns : ∀ n ∈ ns, n.CoveredBy P) :
    Stops P (emitBlifAll c text ids) r := by
  induction ids generalizing r text ns with
  | nil => exact (regular_pure text).stops hP
  | cons id ids ih =>
    cases ns with
    | nil => exact nomatch hids
    | cons n ns =>
      obtain ⟨hn, hrest⟩ := List.cons.inj hids
      apply (stops_emitBlif c hr.wired hr.prepared hn hP (hns n List.mem_cons_self)).bind
      intro statement s hs
      obtain ⟨-, hsettles, -⟩ := (emitBlif_writes c hr.prepared hn).of_ok hs
      apply ih _ (hsettles.ready hr)
      · exact hsettles.nodes ▸ hrest
      · exact fun n hn => hns n (List.mem_cons_of_mem _ hn)

/-! ### Inputs and outputs of the circuit -/

theorem regular_names {ids : List NodeId} (hids : ∀ k ∈ ids, k < r.netlist.nodes.size) :
    Regular (names ids) r := by
  unfold names
  induction ids with
  | nil => exact regular_pure []
  | cons id ids ih =>
    have hn := Array.getElem?_eq_getElem (hids id List.mem_cons_self)
    have hname : Regular (do return (← ask (·.node id)).name) r :=
      regular_ask_bind (node_eq_ok_iff.mpr hn) (regular_pure _)
    rw [List.mapM_cons]
    apply hname.bind
    intro name s hs
    have hsame : s = r := by
      have hends : Ends (do return (← ask (·.node id)).name) r (fun _ s => s = r) fun _ _ => True :=
        Ends.bind (ends_ask fun _ _ => ends_pure rfl)
      exact hends.of_ok hs
    rw [hsame]
    exact (ih fun k hk => hids k (List.mem_cons_of_mem _ hk)).bind fun _ _ _ => regular_pure _

/-- An output with pins has a driver, or leads to an error of the circuit. -/
theorem regular_output_bind {α : Type} {id : NodeId} {f : Node → Driver → Emit α}
    (hnl : r.netlist.Wired) (hpins : r.netlist.pinsOfNode id .input ≠ [])
    (hf : ∀ n d s ids, r.Settles ids s → Regular (f n d) s) :
    Regular (do
      let output ← ask (·.node id)
      let driver ← resolveOutput output
      f output driver) r := by
  cases hn : r.netlist.nodes[id]? with
  | none =>
    rw [pinsOfNode, hn] at hpins
    exact absurd rfl hpins
  | some n =>
    rw [pinsOfNode, hn] at hpins
    apply regular_ask_bind (node_eq_ok_iff.mpr hn)
    cases hinputs : n.inputs with
    | nil => exact absurd hinputs hpins
    | cons pin rest =>
      have hpin : pin ∈ n.inputs := by
        rw [hinputs]
        exact List.mem_cons_self
      obtain ⟨p, hp, -, hinput⟩ := hnl.pin_of_mem .input hn hpin
      rw [resolveOutput, hinputs]
      apply (regular_resolve hnl hp hinput).bind
      intro d s hs
      obtain ⟨-, hsettles, -⟩ := (resolve_ends pin).of_ok hs
      exact hf n d s [pin] hsettles

theorem regular_emitBuffers (text : String) {ids : List NodeId} (hnl : r.netlist.Wired)
    (hids : ∀ k ∈ ids, r.netlist.pinsOfNode k .input ≠ []) : Regular (emitBuffers text ids) r := by
  induction ids generalizing r text with
  | nil => exact regular_pure text
  | cons id ids ih =>
    apply regular_output_bind hnl (hids id List.mem_cons_self)
    intro n d s read hsettles
    apply ih
    · exact hsettles.netlist ▸ hnl.tieAll read
    · rw [hsettles.pinsOfNode]
      exact fun k hk => hids k (List.mem_cons_of_mem _ hk)

/-! ### Declarations -/

theorem stops_declareBlif (hP : ∀ e, P (.error e)) (referenced : List String) (ds : Declarations)
    {models : List Model} (hmodels : ∀ m ∈ models, Catalog.isWanted referenced m →
      Catalog.isReserved m = false → m.portsFit = false → P (.fault .overflow)) :
    Stops P (declareBlif referenced ds models) r := by
  induction models generalizing r ds with
  | nil => exact (regular_pure ds).stops hP
  | cons m models ih =>
    have hrest (ds : Declarations) (s : Run) : Stops P (declareBlif referenced ds models) s :=
      ih ds fun m hm => hmodels m (List.mem_cons_of_mem _ hm)
    unfold declareBlif
    have htell : Regular (tellAll (Catalog.reservedEvents referenced m)) r := regular_of_ok rfl
    apply (htell.stops hP).bind
    intro _ s _
    split
    · next hdeclared =>
      split
      · exact (regular_pure _).stops hP
      · refine (stops_demand ?_).bind fun declaration s _ => ?_
        · intro f hf
          rw [Bool.and_eq_true, Bool.not_eq_true'] at hdeclared
          unfold Blif.declaration at hf
          split at hf
          · cases hf
          · next hfits =>
            cases hf
            exact hmodels m List.mem_cons_self hdeclared.1 hdeclared.2 (by simpa using hfits)
        · apply ((regular_modifyReport _).stops hP).bind
          exact fun _ s _ => hrest _ s
    · exact hrest ds s

/-! ### Circuits -/

theorem stops_prepare_bind {α : Type} {mark : UInt16} {f : Unit → Emit α}
    (h : Stops P (f ()) (r.prepare mark)) : Stops P (modifyNetlist (·.instantiateAll mark) >>= f) r :=
  stops_ok_bind rfl h

theorem stops_writeBlif (hP : ∀ e, P (.error e)) {nl : Netlist}
    (hnl : r.netlist.instantiateAll c.config.traversalMark = nl)
    (hready : nl.Ready c.config.traversalMark) (hnodes : ∀ n ∈ nl.nodes.toList, n.CoveredBy P)
    (hmodels : ∀ m ∈ c.catalog.models,
      Catalog.isWanted (countedTally nl r.report.tally).referencedModels m →
      Catalog.isReserved m = false → m.portsFit = false → P (.fault .overflow)) :
    Stops P (writeBlif c) r := by
  refine stops_prepare_bind (stops_ok_bind rfl (stops_ok_bind rfl ?_))
  dsimp only
  generalize hstart : ({ r.prepare c.config.traversalMark with log := _ } : Run) = r₀
  have hnetlist : r₀.netlist = nl := by
    rw [← hstart]
    exact hnl
  have hreport : r₀.report = r.report := by
    rw [← hstart]
    rfl
  have hsame : (r.prepare c.config.traversalMark).netlist = r₀.netlist := hnl.trans hnetlist.symm
  rw [hsame]
  rw [← hreport] at hmodels
  clear hstart hreport hsame
  subst hnetlist
  have hids := map_range_nodes r₀.netlist
  apply (stops_emitBlifAll hP "" hready hids hnodes).bind
  intro body r₁ hbody
  obtain ⟨-, hsettles₁, htally₁⟩ := (emitBlifAll_writes c "" hready.prepared hids).of_ok hbody
  have hpins : ∀ k ∈ r₀.netlist.topOutputs, r₁.netlist.pinsOfNode k .input ≠ [] := by
    rw [hsettles₁.pinsOfNode]
    exact hready.accessible.outputs
  apply ((regular_emitBuffers "" (hsettles₁.ready hready).wired hpins).stops hP).bind
  intro buffers r₂ hbuffers
  obtain ⟨-, hsettles₂, htally₂⟩ := (emitBuffers_reads "" r₀.netlist.topOutputs).of_ok hbuffers
  have hnodes₂ : r₂.netlist.nodes = r₀.netlist.nodes := hsettles₂.nodes.trans hsettles₁.nodes
  have hinputs : ∀ k ∈ r₀.netlist.topInputs, k < r₂.netlist.nodes.size := by
    rw [hnodes₂]
    exact hready.accessible.inputs
  apply ((regular_names hinputs).stops hP).bind
  intro inputs r₃ hnames
  obtain ⟨-, -, rfl⟩ := (names_reads _).of_ok hnames
  have houtputs : ∀ k ∈ r₀.netlist.topOutputs, k < r₃.netlist.nodes.size := by
    rw [hnodes₂]
    exact fun k hk => hready.accessible.lt_of_output hk
  apply ((regular_names houtputs).stops hP).bind
  intro outputs r₄ hnames
  obtain ⟨-, -, rfl⟩ := (names_reads _).of_ok hnames
  have hreferenced : r₄.report.tally.referencedModels =
      (countedTally r₀.netlist r₀.report.tally).referencedModels :=
    congrArg Report.referencedModels (htally₂.trans htally₁)
  rw [← hreferenced] at hmodels
  have hblackboxes : Stops P (emitBlackboxes c [c.config.topModule]) r₄ :=
    stops_ok_bind rfl (stops_declareBlif hP _ _ hmodels)
  refine hblackboxes.bind fun ds s _ => Regular.stops ?_ hP
  cases ds.clash with
  | some name => exact (regular_fail _).bind fun _ _ hs => nomatch hs
  | none => exact regular_pure _

end Emit

/-- The number of places in the table of a sum of products; zero for other kinds. -/
def NodeKind.tablePlaces : NodeKind → Nat
  | .sop width depth _ => 2 * width * depth
  | _ => 0

/-- How the writing of a circuit in BLIF can end other than with its text. -/
inductive Circuit.BlifFailure (circuit : Circuit) (config : Config) : Failure → Prop where
  | error (e : EmitError) : BlifFailure circuit config (.error e)
  | firstInput {n : Node} (hn : n ∈ circuit.netlist.nodes.toList) (hkind : n.kind.isPrimitive)
      (hsize : n.firstInputSize = 0) : BlifFailure circuit config (.violated .firstInputPort)
  | firstOutput {n : Node} (hn : n ∈ circuit.netlist.nodes.toList) (hkind : n.kind.isPrimitive)
      (hsize : n.firstOutputSize = 0) : BlifFailure circuit config (.violated .firstOutputPort)
  /-- The rows of a sum of products are more than memory holds. -/
  | rows {n : Node} {width depth : Nat} {table : List Bit} (hn : n ∈ circuit.netlist.nodes.toList)
      (hkind : n.kind = .sop width depth table)
      (hrows : Capacity.maxBytes < Capacity.textBytes * depth) :
      BlifFailure circuit config (.fault .overflow)
  /-- A row of a sum of products is longer than memory allows. -/
  | row {n : Node} {width depth : Nat} {table : List Bit} (hn : n ∈ circuit.netlist.nodes.toList)
      (hkind : n.kind = .sop width depth table) (hdepth : depth ≠ 0) (hrow : 2 ^ 62 ≤ width) :
      BlifFailure circuit config (.fault .overflow)
  /-- The bits of a port of a declared model are more than memory holds names for. -/
  | bits {m : Model} {port : ModelPort}
      (hm : m ∈ (Context.new circuit.catalog config).catalog.models)
      (hdeclared : circuit.netlist.Declares m) (hport : port ∈ m.inputs ++ m.outputs)
      (hbits : Capacity.maxBytes < Capacity.textBytes * port.size) :
      BlifFailure circuit config (.fault .overflow)

/-- Writing a circuit that was read from a description in BLIF ends with the text, with an error of the
circuit, or at a first port of a primitive that has no pins, if the tables have places with numbers of
64 bits.  Otherwise there is no memory for the rows of a table, for one of them, or for the names of the
bits of a port.
No reference is dangling, no pin is read from the wrong side and none that is needed is missing. -/
theorem writeBlif_stops_of_build {d : CircuitDescription} {circuit : Circuit}
    (hbuild : d.build = .ok circuit) (config : Config)
    (hplaces : ∀ n ∈ circuit.netlist.nodes.toList, n.kind.tablePlaces < UInt64.size) :
    Emit.Stops (circuit.BlifFailure config) (Emit.writeBlif (Context.new circuit.catalog config))
      { netlist := circuit.netlist } := by
  have hP (e : EmitError) : circuit.BlifFailure config (.error e) := .error e
  have hready := CircuitDescription.ready_of_build hbuild config.traversalMark
  have hgraph := circuit.netlist.graph_instantiateAll config.traversalMark
  have hcovered : ∀ n ∈ (circuit.netlist.instantiateAll config.traversalMark).nodes.toList,
      n.CoveredBy (circuit.BlifFailure config) := by
    rw [forall_nodes_of_graph hgraph fun n => ?_]
    · intro n hn
      constructor
      · exact fun hkind hsize => .firstInput hn hkind hsize
      · exact fun hkind hsize => .firstOutput hn hkind hsize
      · intro _ hmany
        simp only [Node.TableFits, not_forall] at hmany
        obtain ⟨width, depth, table, hkind, hmany⟩ := hmany
        have hplaces := hplaces n hn
        rw [hkind] at hplaces
        rw [Blif.sopFits_iff hplaces, not_and_or, Nat.not_le, not_or, Nat.not_lt] at hmany
        rcases hmany with hrows | ⟨hdepth, hrow⟩
        · exact .rows hn hkind hrows
        · exact .row hn hkind hdepth hrow
    · exact ⟨fun h => ⟨h.input, h.output, h.table⟩, fun h => ⟨h.input, h.output, h.table⟩⟩
  refine Emit.stops_writeBlif hP rfl hready hcovered ?_
  intro m hm hwanted hfree hmany
  obtain ⟨port, hport, hbits⟩ := List.all_eq_false.mp hmany
  have hnodes := exists_nodes_of_graph hgraph
    (P := fun n => n.kind.isPrimitive ∧ n.kind = .hardBlock m.name) fun _ => Iff.rfl
  have hdeclared : m.used ∨ ∃ n ∈ circuit.netlist.nodes.toList,
      n.kind.isPrimitive ∧ n.kind = .hardBlock m.name := by
    rw [Catalog.isWanted, Bool.or_eq_true, List.contains_iff_mem, Emit.countedTally,
      mem_referencedModels_foldl_count] at hwanted
    rw [← hnodes]
    exact hwanted.imp_right fun h => h.resolve_left List.not_mem_nil
  refine .bits hm ⟨hfree, hdeclared⟩ hport ?_
  rwa [ModelPort.fits, Capacity.fits_iff, Nat.not_le] at hbits

/-- A table of one row, and a gate that has no inputs. -/
def bareDescription : CircuitDescription where
  inputs := ["a"]
  nodes := [
    { name := "s"
      kind := .sop 1 1 "10"
      inputs := [{ mapping := "A", nets := [some "a"] }]
      outputs := [{ mapping := "Y", nets := [none] }] },
    { name := "u"
      kind := .reduceOr
      outputs := [{ mapping := "Y", nets := [none] }] }]

def bareCircuit : Circuit := bareDescription.build.toOption.getD ⟨none, {}, {}⟩

theorem build_bareDescription : bareDescription.build = .ok bareCircuit :=
  eq_ok_getD (by decide +kernel) _

/-- The writing of that circuit fails at the gate, and in a way that is listed. -/
theorem writeBlif_stops_bareCircuit :
    bareDescription.build = .ok bareCircuit ∧
      (∀ n ∈ bareCircuit.netlist.nodes.toList, n.kind.tablePlaces < UInt64.size) ∧
      bareCircuit.BlifFailure {} (.violated .firstInputPort) := by
  have hplaces : ∀ n ∈ bareCircuit.netlist.nodes.toList, n.kind.tablePlaces < UInt64.size := by
    decide +kernel
  have hanswer : Emit.answer (Emit.writeBlif (Context.new bareCircuit.catalog {}))
      { netlist := bareCircuit.netlist } = .error (.violated .firstInputPort) := by
    decide +kernel
  obtain ⟨s, hs⟩ := Emit.exists_of_answer_error hanswer
  exact ⟨build_bareDescription, hplaces, writeBlif_stops_of_build build_bareDescription {} hplaces _ s hs⟩

/-- A model that is used and has a port of `2 ^ 60` bits. -/
def wideDescription : CircuitDescription where
  models := [{ name := "m", inputs := [⟨"a", 1152921504606846976⟩], used := true }]

def wideCircuit : Circuit := wideDescription.build.toOption.getD ⟨none, {}, {}⟩

/-- A table that needs memory for `2 ^ 60` rows. -/
def deepDescription : CircuitDescription where
  inputs := ["a"]
  nodes := [
    { name := "s"
      kind := .sop 1 1152921504606846976 ""
      inputs := [{ mapping := "A", nets := [some "a"] }]
      outputs := [{ mapping := "Y", nets := [none] }] }]

def deepCircuit : Circuit := deepDescription.build.toOption.getD ⟨none, {}, {}⟩

/-- Where the rows of a table or the names of bits are too many for memory, the writing ends neither
with a text or an error nor at a first port. -/
theorem overflow_wideCircuit :
    wideDescription.build = .ok wideCircuit ∧
      (∀ n ∈ wideCircuit.netlist.nodes.toList, n.kind.tablePlaces < UInt64.size) ∧
      Emit.answer (Emit.writeBlif (Context.new wideCircuit.catalog {}))
        { netlist := wideCircuit.netlist } = .error (.fault .overflow) ∧
    deepDescription.build = .ok deepCircuit ∧
      (∀ n ∈ deepCircuit.netlist.nodes.toList, n.kind.tablePlaces < UInt64.size) ∧
      Emit.answer (Emit.writeBlif (Context.new deepCircuit.catalog {}))
        { netlist := deepCircuit.netlist } = .error (.fault .overflow) := by
  refine ⟨eq_ok_getD (by decide +kernel) _, ?_, ?_, eq_ok_getD (by decide +kernel) _, ?_, ?_⟩
  all_goals decide +kernel

end CircuitLowering
