import CircuitLowering.Proofs.Design.CellBuses
import CircuitLowering.Proofs.Emission.Bindings

/-!
# Instances of models

A hard block or skip block becomes an instance of its model.  On the way each of its ports is taken
apart into single pins, and the names of these are read again in order to put the port together.  What
comes out is said here port by port (`Cell.IsInstance`): a port of one pin is bound to the bit of that
pin, and a wider one to the bits of its pins in their order, followed by bit zero of fresh wires where
the model's own module has a wider wire of that name.

That no bit is lost on the way rests on the labels of the ports.  They are pairwise distinct, and none
of them is read as the name of a bit of a bus (`Subscript.IsLabel`).
-/

namespace CircuitLowering

open Text

namespace NodePort

variable {d : Direction} {ports : List NodePort}

/-! ### Ports as they are bound -/

def pinned (ports : List NodePort) : List NodePort := ports.filter fun port => 0 < port.pins.length

def wide (ports : List NodePort) : List NodePort := ports.filter fun port => 1 < port.pins.length

def singles (d : Direction) (bit : PinId → SignalBit) (ports : List NodePort) :
    List (String × Connection) :=
  (ports.filter fun port => port.pins.length = 1).map fun port => (port.label, ⟨port.pins.map bit, d⟩)

def buses (bit : PinId → SignalBit) (ports : List NodePort) : List (String × Signal) :=
  (wide ports).map fun port => (port.label, port.pins.map bit)

theorem mem_pinned {port : NodePort} : port ∈ pinned ports ↔ port ∈ ports ∧ 0 < port.pins.length := by
  simp [pinned]

theorem mem_wide {port : NodePort} : port ∈ wide ports ↔ port ∈ ports ∧ 1 < port.pins.length := by
  simp [wide]

theorem wide_sublist_pinned (ports : List NodePort) : (wide ports).Sublist (pinned ports) := by
  apply List.monotone_filter_right
  intro port hport
  rw [decide_eq_true_eq] at hport ⊢
  exact Nat.lt_of_succ_lt hport

theorem singles_pinned (d : Direction) (bit : PinId → SignalBit) (ports : List NodePort) :
    singles d bit (pinned ports) = singles d bit ports := by
  rw [singles, singles, pinned, List.filter_filter]
  refine congrArg _ (List.filter_congr ?_)
  intro port _
  simp only [Bool.and_eq_left_iff_imp, decide_eq_true_eq]
  omega

theorem buses_pinned (bit : PinId → SignalBit) (ports : List NodePort) :
    buses bit (pinned ports) = buses bit ports := by
  rw [buses, buses, wide, wide, pinned, List.filter_filter]
  refine congrArg _ (List.filter_congr ?_)
  intro port _
  simp only [Bool.and_eq_left_iff_imp, decide_eq_true_eq]
  omega

theorem flatMap_bindings_pinned (ports : List NodePort) :
    (pinned ports).flatMap bindings = ports.flatMap bindings := by
  induction ports with
  | nil => rfl
  | cons port ports ih =>
    rcases port with ⟨label, _ | ⟨pin, pins⟩⟩
    · exact ih
    · exact congrArg (bindings ⟨label, pin :: pins⟩ ++ ·) ih

/-- Ports of one pin and wider ones are all the ports that have pins. -/
theorem labels_perm_pinned (d : Direction) (bit : PinId → SignalBit) (ports : List NodePort) :
    ((singles d bit ports).map Prod.fst ++ (wide ports).map (·.label)).Perm
      ((pinned ports).map (·.label)) := by
  have hsplit := (List.filter_append_perm (fun port => decide (port.pins.length = 1))
    (pinned ports)).map (·.label)
  have hwide : (pinned ports).filter (fun port => !decide (port.pins.length = 1)) = wide ports := by
    rw [pinned, wide, List.filter_filter]
    apply List.filter_congr
    intro port _
    rw [← decide_not, ← Bool.decide_and, decide_eq_decide]
    omega
  rw [← singles_pinned, singles, List.map_map]
  rw [hwide, List.map_append] at hsplit
  exact hsplit

/-! ### Putting ports together again -/

/-- The pins of a port of several are bound under its label with their indices. -/
theorem map_bindings_of_one_lt {port : NodePort} (hport : 1 < port.pins.length)
    (bit : PinId → SignalBit) :
    (port.bindings.map fun binding => (binding.1, bit binding.2)) =
      (port.pins.map bit).zipIdx.map fun (bit, index) => (Subscript.join port.label index, bit) := by
  rcases port with ⟨label, _ | ⟨pin, _ | ⟨second, rest⟩⟩⟩
  · exact absurd hport (by simp)
  · exact absurd hport (by simp)
  · rw [bindings, List.zipIdx_map, List.map_map, List.map_map]
    rfl

/-- The bits of one side of a node are bound port by port: those of single pins to the cell, and those
of wider ports to the buses. -/
theorem foldl_bindScalars {c : Cell} {bs : CellBuses} (bit : PinId → SignalBit)
    (hpinned : ∀ port ∈ ports, 0 < port.pins.length)
    (hlabels : ∀ port ∈ ports, Subscript.IsLabel port.label)
    (hshort : ∀ port ∈ ports, port.pins.length < Subscript.indexLimit)
    (hnodup : (ports.map (·.label)).Nodup) (hnew : ∀ port ∈ ports, port.label ∉ bs.names) :
    ∃ bs', ((ports.flatMap bindings).map fun binding => (binding.1, bit binding.2)).foldl
        (Cell.bindScalars d) (c, bs) = (c.bindAll (singles d bit ports), bs') ∧
      bs'.entries = bs.entries ++ CellBuses.indexedEntries (buses bit ports) := by
  induction ports generalizing c bs with
  | nil => exact ⟨bs, rfl, (List.append_nil _).symm⟩
  | cons port ports ih =>
    rw [List.map_cons, List.nodup_cons] at hnodup
    have hlabel := hlabels port List.mem_cons_self
    have hrest (c : Cell) {bs : CellBuses} (hnew : ∀ port ∈ ports, port.label ∉ bs.names) :=
      ih (c := c) (fun other hother => hpinned other (List.mem_cons_of_mem _ hother))
        (fun other hother => hlabels other (List.mem_cons_of_mem _ hother))
        (fun other hother => hshort other (List.mem_cons_of_mem _ hother)) hnodup.2 hnew
    rw [List.flatMap_cons, List.map_append, List.foldl_append]
    rcases hpins : port.pins with _ | ⟨pin, _ | ⟨second, rest⟩⟩
    · have hempty := hpinned port List.mem_cons_self
      rw [hpins] at hempty
      exact absurd hempty (Nat.lt_irrefl 0)
    · obtain ⟨bs', hfold, hentries⟩ := hrest (c.bind port.label [bit pin] d)
        fun other hother => hnew other (List.mem_cons_of_mem _ hother)
      refine ⟨bs', ?_, ?_⟩
      · rw [bindings, hpins, List.map_singleton, List.foldl_cons, List.foldl_nil,
          Cell.bindScalars_of_split?_eq_none hlabel.2, hfold]
        simp [singles, hpins, Cell.bindAll]
      · rw [hentries]
        simp [buses, wide, hpins]
    · have hseveral : 1 < port.pins.length := by simp [hpins]
      have hbits := map_bindings_of_one_lt hseveral bit
      have hbase := hnew port List.mem_cons_self
      have hnext : ∀ other ∈ ports, other.label ∉
          (bs.insert port.label (CellBuses.indexed (port.pins.map bit))).names := by
        rw [Ordered.names_insert_of_notMem hbase]
        exact Ordered.notMem_append_of_nodup hnodup.1 hnew
      obtain ⟨bs', hfold, hentries⟩ := hrest c hnext
      refine ⟨bs', ?_, ?_⟩
      · rw [hbits, Cell.foldl_bindScalars_bits hlabel.1 (by simp [hpins])
          (by simpa using hshort port List.mem_cons_self) hbase, hfold]
        simp [singles, hpins]
      · rw [hentries, Ordered.entries_insert_of_notMem hbase]
        simp [buses, wide, hpins, CellBuses.indexedEntries]

/-- The ports of more than one pin, bound to the bits of their pins and bit zero of more wires. -/
def wides (d : Direction) (bit : PinId → SignalBit) (fillers : String → List String)
    (ports : List NodePort) : List (String × Connection) :=
  (wide ports).map fun port =>
    (port.label, ⟨port.pins.map bit ++ (fillers port.label).map fun name => .wire name 0, d⟩)

end NodePort

/-! ### Instances -/

namespace NodePort

def labels (ports : Direction → List NodePort) : List String :=
  (pinned (ports .input) ++ pinned (ports .output)).map (·.label)

/-- What the ports of a node need so that they can be put together from the names of their pins. -/
structure Separable (ports : Direction → List NodePort) : Prop where
  labels : ∀ d, ∀ port ∈ pinned (ports d), Subscript.IsLabel port.label
  nodup : (NodePort.labels ports).Nodup

/-- How wide the connection of a port is: at least as wide as the wire of the callee. -/
def fullWidth (calleeWidth? : String → Option Nat) (port : NodePort) : Nat :=
  max port.pins.length ((calleeWidth? port.label).getD 0)

end NodePort

namespace Cell

open NodePort

variable {ports : Direction → List NodePort} {bit : Direction → PinId → SignalBit}
  {calleeWidth? : String → Option Nat}

def bindingsOf (ports : Direction → List NodePort) (bit : Direction → PinId → SignalBit)
    (d : Direction) : List (String × SignalBit) :=
  ((ports d).flatMap NodePort.bindings).map fun binding => (binding.1, bit d binding.2)

def instanceBuses (ports : Direction → List NodePort) (bit : Direction → PinId → SignalBit) :
    List (String × Signal) :=
  buses (bit .input) (ports .input) ++ buses (bit .output) (ports .output)

def instanceConnections (ports : Direction → List NodePort) (bit : Direction → PinId → SignalBit)
    (fillers : String → List String) : List (String × Connection) :=
  singles .input (bit .input) (ports .input) ++ (singles .output (bit .output) (ports .output) ++
    (wides .input (bit .input) fillers (ports .input) ++
      wides .output (bit .output) fillers (ports .output)))

theorem names_instanceBuses :
    (instanceBuses ports bit).map Prod.fst =
      (wide (ports .input) ++ wide (ports .output)).map (·.label) := by
  simp [instanceBuses, buses, Function.comp_def]

theorem names_instanceConnections (ports : Direction → List NodePort)
    (bit : Direction → PinId → SignalBit) (fillers : String → List String) :
    ((instanceConnections ports bit fillers).map Prod.fst).Perm (labels ports) := by
  have hinputs := labels_perm_pinned .input (bit .input) (ports .input)
  have houtputs := labels_perm_pinned .output (bit .output) (ports .output)
  have hall := hinputs.append houtputs
  rw [List.append_assoc, ← List.map_append] at hall
  refine List.Perm.trans ?_ hall
  simp only [instanceConnections, wides, List.map_append, List.map_map, Function.comp_def]
  exact (List.perm_append_comm_assoc _ _ _).append_left _

theorem mem_instanceBuses (bit : Direction → PinId → SignalBit) {d : Direction} {port : NodePort}
    (h : port ∈ wide (ports d)) :
    (port.label, port.pins.map (bit d)) ∈ instanceBuses ports bit := by
  have hbus := List.mem_map_of_mem (f := fun port : NodePort => (port.label, port.pins.map (bit d))) h
  cases d with
  | input => exact List.mem_append_left _ hbus
  | output => exact List.mem_append_right _ hbus

theorem exists_of_mem_instanceBuses {bus : String × Signal} (h : bus ∈ instanceBuses ports bit) :
    ∃ d, ∃ port ∈ wide (ports d), bus = (port.label, port.pins.map (bit d)) := by
  rcases List.mem_append.mp h with h | h
  · obtain ⟨port, hport, rfl⟩ := List.mem_map.mp h
    exact ⟨.input, port, hport, rfl⟩
  · obtain ⟨port, hport, rfl⟩ := List.mem_map.mp h
    exact ⟨.output, port, hport, rfl⟩

section Separable

variable (hshort : ∀ d, ∀ port ∈ ports d, port.pins.length < Subscript.indexLimit)
include hshort

theorem shortBuses (bus : String × Signal) (hbus : bus ∈ instanceBuses ports bit) :
    bus.2.length < Subscript.indexLimit := by
  obtain ⟨d, port, hport, rfl⟩ := exists_of_mem_instanceBuses hbus
  rw [List.length_map]
  exact hshort d port (mem_wide.mp hport).1

variable (hports : Separable ports)
include hports

/-- One side of an instance: its single pins are bound, and the others are collected as buses. -/
theorem foldl_bindingsOf (bit : Direction → PinId → SignalBit) (d : Direction) (c : Cell) :
    ∃ bs, (bindingsOf ports bit d).foldl (bindScalars d) (c, Ordered.empty) =
        (c.bindAll (singles d (bit d) (ports d)), bs) ∧
      bs.entries = CellBuses.indexedEntries (buses (bit d) (ports d)) := by
  have hnodup : ((pinned (ports d)).map (·.label)).Nodup := by
    have h := hports.nodup
    rw [labels, List.map_append, List.nodup_append] at h
    cases d with
    | input => exact h.1
    | output => exact h.2.1
  have hnew : ∀ port ∈ pinned (ports d), port.label ∉ (Ordered.empty : CellBuses).names :=
    fun _ _ => List.not_mem_nil
  obtain ⟨bs, hfold, hentries⟩ := NodePort.foldl_bindScalars (d := d) (c := c) (bit d)
    (fun port hport => (mem_pinned.mp hport).2) (hports.labels d)
    (fun port hport => hshort d port (mem_pinned.mp hport).1) hnodup hnew
  rw [flatMap_bindings_pinned, singles_pinned] at hfold
  rw [buses_pinned] at hentries
  exact ⟨bs, hfold, hentries⟩

theorem ofInstance_eq (m : Module) (c : Cell) :
    ofInstance m c calleeWidth? (bindingsOf ports bit .input) (bindingsOf ports bit .output) = (do
      let (inputSignals, m) ← CellBuses.materializeFrom m calleeWidth?
        (CellBuses.indexedEntries (buses (bit .input) (ports .input)))
      let (outputSignals, m) ← CellBuses.materializeFrom m calleeWidth?
        (CellBuses.indexedEntries (buses (bit .output) (ports .output)))
      let c := (c.bindAll (singles .input (bit .input) (ports .input))).bindAll
        (singles .output (bit .output) (ports .output))
      return ((c.bindBuses .input inputSignals).bindBuses .output outputSignals, m)) := by
  obtain ⟨inputBuses, hinputs, hinputEntries⟩ := foldl_bindingsOf hshort hports bit .input c
  obtain ⟨outputBuses, houtputs, houtputEntries⟩ := foldl_bindingsOf hshort hports bit .output
    (c.bindAll (singles .input (bit .input) (ports .input)))
  simp only [ofInstance, hinputs, houtputs, CellBuses.materialize, hinputEntries, houtputEntries]

theorem exists_ofInstance (bit : Direction → PinId → SignalBit) (m : Module) (c : Cell)
    (hfits : ∀ d, ∀ port ∈ wide (ports d),
      Capacity.fits Capacity.signalBitBytes (port.fullWidth calleeWidth?) = true) :
    ∃ (fillers : String → List String) (m' : Module),
      ofInstance m c calleeWidth? (bindingsOf ports bit .input) (bindingsOf ports bit .output) =
        .ok (c.bindAll (instanceConnections ports bit fillers), m') ∧
      (∀ d, ∀ port ∈ wide (ports d),
        port.pins.length + (fillers port.label).length = port.fullWidth calleeWidth?) ∧
      m'.wires.entries = m.wires.entries ++ Module.fillerEntries
        (((wide (ports .input) ++ wide (ports .output)).map (·.label)).flatMap fillers) := by
  have hnodup : ((instanceBuses ports bit).map Prod.fst).Nodup := by
    rw [names_instanceBuses]
    refine List.Nodup.sublist (List.Sublist.map _ ?_) hports.nodup
    exact (wide_sublist_pinned _).append (wide_sublist_pinned _)
  have hfull {d : Direction} (port : NodePort) :
      CellBuses.fullWidth calleeWidth? (port.label, port.pins.map (bit d)) =
        port.fullWidth calleeWidth? := by
    rw [CellBuses.fullWidth, List.length_map]
    rfl
  obtain ⟨fillers, m', hmake, hwidths, hentries⟩ := CellBuses.materializeFrom_indexed (m := m) hnodup
    (shortBuses hshort) <| by
      intro bus hbus
      obtain ⟨d, port, hport, rfl⟩ := exists_of_mem_instanceBuses hbus
      rw [hfull]
      exact hfits d port hport
  rw [← List.flatMap_map, names_instanceBuses] at hentries
  refine ⟨fillers, m', ?_, ?_, hentries⟩
  · -- the buses are made side by side, so the signals of the one side come first
    rw [instanceBuses, CellBuses.indexedEntries, List.map_append, CellBuses.materializeFrom_append]
      at hmake
    obtain ⟨inputs, hinputs, hmake⟩ := bind_eq_ok_iff.mp hmake
    obtain ⟨outputs, houtputs, hmake⟩ := bind_eq_ok_iff.mp hmake
    have hsignals := Prod.mk.inj (Except.ok.inj hmake)
    rw [List.map_append] at hsignals
    have hlength := CellBuses.length_of_materializeFrom hinputs
    obtain ⟨hin, hout⟩ := List.append_inj hsignals.1 (by rw [hlength, List.length_map, List.length_map])
    have hcell : ((((c.bindAll (singles .input (bit .input) (ports .input))).bindAll
          (singles .output (bit .output) (ports .output))).bindBuses .input inputs.1).bindBuses .output
            outputs.1) = c.bindAll (instanceConnections ports bit fillers) := by
      rw [hin, hout, bindBuses_eq_bindAll, bindBuses_eq_bindAll, ← bindAll_append, ← bindAll_append,
        ← bindAll_append]
      simp [instanceConnections, wides, buses, Function.comp_def]
    rw [ofInstance_eq hshort hports]
    refine bind_eq_ok_iff.mpr ⟨inputs, hinputs, bind_eq_ok_iff.mpr ⟨outputs, houtputs, ?_⟩⟩
    exact congrArg Except.ok (Prod.ext hcell hsignals.2)
  · intro d port hport
    have hwidth := hwidths _ (mem_instanceBuses bit hport)
    rwa [hfull, List.length_map] at hwidth

theorem fits_of_ofInstance {m : Module} {c : Cell} {result : Cell × Module}
    (h : ofInstance m c calleeWidth? (bindingsOf ports bit .input) (bindingsOf ports bit .output) =
      .ok result) :
    ∀ d, ∀ port ∈ wide (ports d),
      Capacity.fits Capacity.signalBitBytes (port.fullWidth calleeWidth?) = true := by
  rw [ofInstance_eq hshort hports] at h
  obtain ⟨inputs, hinputs, h⟩ := bind_eq_ok_iff.mp h
  obtain ⟨outputs, houtputs, -⟩ := bind_eq_ok_iff.mp h
  have hmake : CellBuses.materializeFrom m calleeWidth?
      (CellBuses.indexedEntries (instanceBuses ports bit)) =
        .ok (inputs.1 ++ outputs.1, outputs.2) := by
    rw [instanceBuses, CellBuses.indexedEntries, List.map_append, CellBuses.materializeFrom_append]
    exact bind_eq_ok_iff.mpr ⟨inputs, hinputs, bind_eq_ok_iff.mpr ⟨outputs, houtputs, rfl⟩⟩
  intro d port hport
  have hfits := CellBuses.fits_of_materializeFrom (shortBuses hshort) hmake _
    (mem_instanceBuses bit hport)
  rwa [CellBuses.fullWidth, List.length_map] at hfits

end Separable

/-! ### Cells of blocks -/

/-- What an instance is for the ports of a node, whose pins have the bits `bit`, when it is made in the
module `m` and leaves `m'`. -/
structure IsInstance (c : Cell) (ports : Direction → List NodePort)
    (bit : Direction → PinId → SignalBit) (calleeWidth? : String → Option Nat) (m m' : Module) :
    Prop where
  /-- Each port with pins has one connection, and there are no others. -/
  names : c.ports.names.Perm (labels ports)
  single : ∀ d, ∀ port ∈ ports d, ∀ pin, port.pins = [pin] →
    c.ports.get? port.label = some ⟨[bit d pin], d⟩
  /-- Beyond the bits of its pins, a wider port is bound to new wires of one bit, all of them
  distinct. -/
  bus : ∃ fillers : String → List String,
    (∀ d, ∀ port ∈ ports d, 1 < port.pins.length →
      c.ports.get? port.label = some
        ⟨port.pins.map (bit d) ++ (fillers port.label).map fun name => .wire name 0, d⟩ ∧
      port.pins.length + (fillers port.label).length = port.fullWidth calleeWidth? ∧
      ∀ name ∈ fillers port.label,
        m.wires.get? name = none ∧ m'.wires.get? name = some { width := 1 }) ∧
    (((wide (ports .input) ++ wide (ports .output)).map (·.label)).flatMap fillers).Nodup

theorem mem_instanceConnections_single {d : Direction} {port : NodePort} (hport : port ∈ ports d)
    {pin : PinId} (hpin : port.pins = [pin]) (fillers : String → List String) :
    (port.label, ⟨[bit d pin], d⟩) ∈ instanceConnections ports bit fillers := by
  have hsingle : (port.label, ⟨[bit d pin], d⟩) ∈ singles d (bit d) (ports d) := by
    refine List.mem_map.mpr ⟨port, List.mem_filter.mpr ⟨hport, ?_⟩, ?_⟩
    · simp [hpin]
    · rw [hpin, List.map_singleton]
  unfold instanceConnections
  cases d with
  | input => exact List.mem_append_left _ hsingle
  | output => exact List.mem_append_right _ (List.mem_append_left _ hsingle)

theorem mem_instanceConnections_wide {d : Direction} {port : NodePort} (hport : port ∈ wide (ports d))
    (fillers : String → List String) :
    (port.label, ⟨port.pins.map (bit d) ++ (fillers port.label).map fun name => .wire name 0, d⟩) ∈
      instanceConnections ports bit fillers := by
  have hwide : (port.label,
      ⟨port.pins.map (bit d) ++ (fillers port.label).map fun name => SignalBit.wire name 0, d⟩) ∈
        wides d (bit d) fillers (ports d) := List.mem_map.mpr ⟨port, hport, rfl⟩
  unfold instanceConnections
  refine List.mem_append_right _ (List.mem_append_right _ ?_)
  cases d with
  | input => exact List.mem_append_left _ hwide
  | output => exact List.mem_append_right _ hwide

/-- A cell with the connections of an instance is one, if the module has got its new wires. -/
theorem isInstance_of_entries {c : Cell} {m m₀ m' : Module}
    {fillers : String → List String} (hnames : m.wires.names ⊆ m₀.wires.names)
    (hentries : c.ports.entries = instanceConnections ports bit fillers)
    (hwidths : ∀ d, ∀ port ∈ wide (ports d),
      port.pins.length + (fillers port.label).length = port.fullWidth calleeWidth?)
    (hwires : m'.wires.entries = m₀.wires.entries ++ Module.fillerEntries
      (((wide (ports .input) ++ wide (ports .output)).map (·.label)).flatMap fillers)) :
    c.IsInstance ports bit calleeWidth? m m' := by
  obtain ⟨hnodup, hnew⟩ := Module.fillers_of_entries hwires
  refine ⟨?_, ?_, fillers, ?_, hnodup⟩
  · rw [Ordered.names, hentries]
    exact names_instanceConnections ports bit fillers
  · intro d port hport pin hpin
    rw [Ordered.get?_eq_some_iff, hentries]
    exact mem_instanceConnections_single hport hpin fillers
  · intro d port hport hwide
    have hmem := mem_wide.mpr ⟨hport, hwide⟩
    refine ⟨?_, hwidths d port hmem, ?_⟩
    · rw [Ordered.get?_eq_some_iff, hentries]
      exact mem_instanceConnections_wide hmem fillers
    · intro name hname
      have hfiller : name ∈
          ((wide (ports .input) ++ wide (ports .output)).map (·.label)).flatMap fillers := by
        refine List.mem_flatMap.mpr ⟨port.label, List.mem_map_of_mem ?_, hname⟩
        cases d with
        | input => exact List.mem_append_left _ hmem
        | output => exact List.mem_append_right _ hmem
      obtain ⟨hfresh, hwire⟩ := hnew name hfiller
      exact ⟨Ordered.get?_eq_none_iff.mpr fun hold => hfresh (hnames hold), hwire⟩

end Cell

def Design.wireWidth? (d : Design) (module wire : String) : Option Nat :=
  ((d.module? module).bind (·.wires.get? wire)).map (·.width)

section Blocks

variable {id : NodeId} {r r' : Run} {n : Node} {model : String} {ports : Direction → List NodePort}
  {p : Primitive}

theorem Cell.ofKind_block (hkind : n.kind.model? = some model) (htype : p.cellType = model)
    (m : Module) (d : Design) (inputs outputs : Signal) :
    ofKind m d n p inputs outputs =
      ofInstance m { type := model } (d.wireWidth? model) ((p.inputs.map (·.port)).zip inputs)
        ((p.outputs.map (·.port)).zip outputs) := by
  subst htype
  unfold ofKind
  cases hk : n.kind <;> rw [hk] at hkind <;> cases hkind <;> rfl

/-- The cell of a block is made as an instance, after the wires of its pins. -/
theorem Cell.ofPrimitive_block (hn : r.netlist.nodes[id]? = some n)
    (hkind : n.kind.model? = some model) (hports : ∀ d, r.netlist.HasPorts id d (ports d))
    (hassemble : Emit.assemble id r = .ok p r') (m : Module) (d : Design) :
    ∃ m₀ : Module, m.wires.names ⊆ m₀.wires.names ∧
      Cell.ofPrimitive m d n p = (do
        let (c, m) ← ofInstance m₀ { type := model } (d.wireWidth? model)
          (bindingsOf ports r.netlist.boundBit .input) (bindingsOf ports r.netlist.boundBit .output)
        return (c.setParams n.params.entries, m)) := by
  obtain ⟨htype, hinputs, houtputs⟩ := (Emit.assemble_ends hn).of_ok hassemble
  have hcellType : p.cellType = model := by
    rw [htype]
    cases hk : n.kind <;> rw [hk] at hkind <;> cases hkind <;> rfl
  have hsides (d : Direction) :
      (Slot.cut (n.pins d) (n.sizes d)).map (fun slot =>
        (r.netlist.bindingName slot, r.netlist.boundBit d slot.pin)) =
          bindingsOf ports r.netlist.boundBit d := by
    have hnames := Netlist.map_bindingName_cut (hports d)
    simp only [Netlist.pinsOfNode, Netlist.sizesOfNode, hn, Option.map_some, Option.getD_some] at hnames
    rw [bindingsOf, ← hnames, List.map_map]
    rfl
  have hinputSide : (p.inputs.map (·.port)).zip (m.driverBits (p.inputs.map (·.driver))).1 =
      bindingsOf ports r.netlist.boundBit .input := by
    rw [Module.driverBits_fst, List.map_map, List.zip_map']
    exact hinputs.trans (hsides .input)
  have houtputSide (m : Module) : (p.outputs.map (·.port)).zip (m.outputBits p.outputs).1 =
      bindingsOf ports r.netlist.boundBit .output := by
    have hwires := congrArg (List.map fun b : String × String => (b.1, SignalBit.wire b.2 0)) houtputs
    rw [List.map_map, List.map_map] at hwires
    rw [Module.outputBits, List.zip_map']
    exact hwires.trans (hsides .output)
  refine ⟨((m.driverBits (p.inputs.map (·.driver))).2.outputBits p.outputs).2, ?_, ?_⟩
  · exact List.Subset.trans (m.names_subset_driverBits _) (Module.names_subset_outputBits _ _)
  · rw [ofPrimitive]
    simp only [ofKind_block hkind hcellType, hinputSide, houtputSide]

/-- The cell of a hard block or skip block binds each of its ports that have pins, and nothing else: a
port of one pin to its bit, a wider one to its bits in their order and, up to the width of the wire
that the model's own module has, to new wires.  It is made wherever the connections fit memory.

The names of the ports have to be distinct and must not be read as bits of buses.  That a node has its
ports holds in every netlist that a caller can build (`Netlist.ported_of_run`). -/
theorem isInstance_of_block (hn : r.netlist.nodes[id]? = some n) (hkind : n.kind.model? = some model)
    (hports : ∀ d, r.netlist.HasPorts id d (ports d)) (hseparable : NodePort.Separable ports)
    (hassemble : Emit.assemble id r = .ok p r') (m : Module) (d : Design) :
    ((∃ c m', Cell.ofPrimitive m d n p = .ok (c, m')) ↔
      ∀ side, ∀ port ∈ ports side, 1 < port.pins.length →
        Capacity.fits Capacity.signalBitBytes (port.fullWidth (d.wireWidth? model)) = true) ∧
    ∀ c m', Cell.ofPrimitive m d n p = .ok (c, m') →
      c.IsInstance ports r.netlist.boundBit (d.wireWidth? model) m m' := by
  have hshort (side : Direction) := (hports side).short
  obtain ⟨m₀, hnames, hcell⟩ := Cell.ofPrimitive_block hn hkind hports hassemble m d
  have hfits {result : Cell × Module} (h : Cell.ofPrimitive m d n p = .ok result) :
      ∀ side, ∀ port ∈ NodePort.wide (ports side),
        Capacity.fits Capacity.signalBitBytes (port.fullWidth (d.wireWidth? model)) = true := by
    rw [hcell] at h
    obtain ⟨result, hmade, -⟩ := bind_eq_ok_iff.mp h
    exact Cell.fits_of_ofInstance hshort hseparable hmade
  constructor
  · constructor
    · intro h
      obtain ⟨c, m', h⟩ := h
      intro side port hport hwide
      exact hfits h side port (NodePort.mem_wide.mpr ⟨hport, hwide⟩)
    · intro hfits
      obtain ⟨fillers, m', hmade, -, -⟩ := Cell.exists_ofInstance hshort hseparable
        r.netlist.boundBit m₀ { type := model } fun side port hport =>
          hfits side port (NodePort.mem_wide.mp hport).1 (NodePort.mem_wide.mp hport).2
      exact ⟨_, m', hcell.trans (bind_eq_ok_iff.mpr ⟨_, hmade, rfl⟩)⟩
  · intro c m' h
    obtain ⟨fillers, m₁, hmade, hwidths, hwires⟩ := Cell.exists_ofInstance hshort hseparable
      r.netlist.boundBit m₀ { type := model } (hfits h)
    rw [hcell, hmade] at h
    cases h
    have hconnections := Cell.names_instanceConnections ports r.netlist.boundBit fillers
    have hentries : ((({ type := model } : Cell).bindAll
          (Cell.instanceConnections ports r.netlist.boundBit fillers)).setParams
            n.params.entries).ports.entries =
        Cell.instanceConnections ports r.netlist.boundBit fillers := by
      rw [Cell.ports_setParams]
      exact Cell.entries_ports_bindAll (hconnections.nodup_iff.mpr hseparable.nodup)
        fun _ _ => List.not_mem_nil
    exact Cell.isInstance_of_entries hnames hentries hwidths hwires

end Blocks

/-- A block with wide and single ports and one without pins; one of its pins reads a constant. -/
def blockOperations : List Operation := [
  .addTopInput "a",
  .addTopInput "b",
  .addNode "u" (.skipBlock "ram"),
  .addPort 5 "d" 2 .input,
  .addPort 5 "e" 1 .input,
  .addPort 5 "nc" 0 .input,
  .addPort 5 "q" 2 .output,
  .addPort 5 "z" 1 .output,
  .connectSink 4 5,
  .connectSink 3 6,
  .connectSink 1 7]

def blockRun : Run := { netlist := (Operation.run Netlist.initial blockOperations).toOption.getD {} }

def blockPorts : Direction → List NodePort
  | .input => [⟨"d", [5, 6]⟩, ⟨"e", [7]⟩, ⟨"nc", []⟩]
  | .output => [⟨"q", [8, 9]⟩, ⟨"z", [10]⟩]

/-- A design in which the model has a wider wire than the node has pins. -/
def blockDesign : Design :=
  { modules := Ordered.empty.insert "ram" ((({} : Module).addPort "d" 4 .input).addPort "q" 2 .output) }

theorem hasPorts_blockRun (d : Direction) : blockRun.netlist.HasPorts 5 d (blockPorts d) := by
  cases d with
  | input => exact ⟨by decide +kernel, by decide +kernel, by decide +kernel, by decide +kernel⟩
  | output => exact ⟨by decide +kernel, by decide +kernel, by decide +kernel, by decide +kernel⟩

theorem separable_blockPorts : NodePort.Separable blockPorts := by
  refine ⟨?_, by decide +kernel⟩
  unfold Subscript.IsLabel Subscript.IsBase
  intro d
  cases d with
  | input => decide +kernel
  | output => decide +kernel

theorem isInstance_blockRun :
    ∃ n p r' c m',
      blockRun.netlist.nodes[5]? = some n ∧ n.kind.model? = some "ram" ∧
      (∀ d, blockRun.netlist.HasPorts 5 d (blockPorts d)) ∧ NodePort.Separable blockPorts ∧
      Emit.assemble 5 blockRun = .ok p r' ∧
      Cell.ofPrimitive (({} : Module).addWire "$auto$0" 1) blockDesign n p = .ok (c, m') ∧
      c.ports.names.Perm ["d", "e", "q", "z"] ∧
      c.ports.get? "e" = some ⟨[.const .one], .input⟩ ∧
      ∃ filler filler', c.ports.get? "d" =
          some ⟨[.wire "b" 0, .wire "a" 0, .wire filler 0, .wire filler' 0], .input⟩ ∧
        filler ≠ filler' ∧ filler ≠ "$auto$0" := by
  have hnode : blockRun.netlist.nodes[5]?.map (·.kind.model?) = some (some "ram") := by
    decide +kernel
  have hassembled : Emit.succeeds (Emit.assemble 5) blockRun = true := by decide +kernel
  obtain ⟨n, hn, hkind⟩ := Option.map_eq_some_iff.1 hnode
  obtain ⟨p, r', hassemble⟩ := Emit.succeeds_iff.1 hassembled
  obtain ⟨hmade, hinstance⟩ := isInstance_of_block hn hkind hasPorts_blockRun separable_blockPorts
    hassemble (({} : Module).addWire "$auto$0" 1) blockDesign
  have hfits : ∀ side, ∀ port ∈ blockPorts side, 1 < port.pins.length →
      Capacity.fits Capacity.signalBitBytes (port.fullWidth (blockDesign.wireWidth? "ram")) = true := by
    intro side
    cases side with
    | input => decide +kernel
    | output => decide +kernel
  obtain ⟨c, m', hcell⟩ := hmade.mpr hfits
  obtain ⟨hnames, hsingle, fillers, hbus, hnodup⟩ := hinstance c m' hcell
  have hconstant := hsingle .input ⟨"e", [7]⟩ (by decide) 7 rfl
  obtain ⟨hdata, hwidth, hnew⟩ := hbus .input ⟨"d", [5, 6]⟩ (by decide) (by decide)
  have hfull : NodePort.fullWidth (blockDesign.wireWidth? "ram") ⟨"d", [5, 6]⟩ = 4 := by
    decide +kernel
  have htwo : (fillers "d").length = 2 := by
    rw [hfull] at hwidth
    exact Nat.add_left_cancel hwidth
  obtain ⟨filler, filler', hfillers⟩ := List.length_eq_two.mp htwo
  have hwides : (NodePort.wide (blockPorts .input) ++ NodePort.wide (blockPorts .output)).map (·.label) =
      ["d", "q"] := rfl
  rw [hwides, List.flatMap_cons, hfillers] at hnodup
  have hbits : ([5, 6] : List PinId).map (blockRun.netlist.boundBit .input) =
      [.wire "b" 0, .wire "a" 0] := by
    decide +kernel
  have hbit : blockRun.netlist.boundBit .input 7 = .const .one := by decide +kernel
  rw [hbit] at hconstant
  dsimp only at hdata hnew
  rw [hbits, hfillers] at hdata
  refine ⟨n, p, r', c, m', hn, hkind, hasPorts_blockRun, separable_blockPorts, hassemble, hcell, ?_,
    hconstant, filler, filler', hdata, ?_, ?_⟩
  · exact hnames.trans (by decide)
  · rintro rfl
    simp at hnodup
  · rintro rfl
    have hfree := (hnew "$auto$0" (by simp [hfillers])).1
    exact absurd hfree (by decide +kernel)

end CircuitLowering
