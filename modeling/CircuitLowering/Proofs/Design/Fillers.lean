import CircuitLowering.Proofs.Design.CellWidths
import CircuitLowering.Proofs.Design.Cells

/-!
# Wires that fill buses

Where no pin is bound to an index of an instance's bus, a fresh wire fills the place.  How often a wire
stands in the connections of a cell is counted with repetition (`Cell.wireNames`).  A wire that is none
of the pins' stands in the new cell as often as it is among the new fillers, once, unless the connection in
which it stands is bound over: that happens to a bus of an input whose name is that of a bus of an output
(`Cell.fills_ofPrimitive`).
-/

namespace CircuitLowering

open Text

/-! ### Where wires stand -/

def Cell.wireNames (c : Cell) : List String := c.ports.entries.flatMap (·.2.signal.wireNames)

def Module.boundWires (m : Module) : List String := m.cells.entries.flatMap (·.2.wireNames)

def Module.joinedWires (m : Module) : List String :=
  m.connections.flatMap fun joined => joined.1.wireNames ++ joined.2.wireNames

namespace Cell

variable {c : Cell} {x : String}

theorem count_wireNames (c : Cell) (x : String) :
    c.wireNames.count x = (c.ports.entries.map fun port => port.2.signal.wireNames.count x).sum :=
  List.count_flatMap

/-- What is bound to a port takes the place of what was bound there. -/
theorem count_wireNames_bind (c : Cell) (port : String) (signal : Signal) (direction : Direction)
    (x : String) :
    (c.bind port signal direction).wireNames.count x +
        ((c.ports.get? port).map (·.signal.wireNames.count x)).getD 0 =
      c.wireNames.count x + signal.wireNames.count x := by
  rw [count_wireNames, count_wireNames]
  exact Ordered.sum_write (fun connection : Connection => connection.signal.wireNames.count x) port
    ⟨signal, direction⟩ c.ports.entries

theorem notMem_wireNames_bind {port : String} {signal : Signal} {direction : Direction}
    (hc : x ∉ c.wireNames) (hsignal : x ∉ signal.wireNames) :
    x ∉ (c.bind port signal direction).wireNames := by
  have hcount := c.count_wireNames_bind port signal direction x
  rw [List.count_eq_zero.mpr hc, List.count_eq_zero.mpr hsignal] at hcount
  exact List.count_eq_zero.mp (by omega)

theorem notMem_of_get?_ports {port : String} {connection : Connection} (hc : x ∉ c.wireNames)
    (h : c.ports.get? port = some connection) : x ∉ connection.signal.wireNames := by
  intro hx
  exact hc (List.mem_flatMap.mpr ⟨_, Ordered.get?_eq_some_iff.mp h, hx⟩)

/-! ### Bound buses -/

def busWires (buses : List (String × Signal)) : List String := buses.flatMap (·.2.wireNames)

theorem get?_ports_bindBuses (direction : Direction) {buses : List (String × Signal)} {port : String}
    (h : port ∉ buses.map Prod.fst) : (c.bindBuses direction buses).ports.get? port = c.ports.get? port := by
  induction buses generalizing c with
  | nil => rfl
  | cons bus buses ih =>
    rw [List.map_cons, List.mem_cons, not_or] at h
    exact (ih h.2).trans (Ordered.get?_insert_of_ne c.ports h.1 _)

theorem count_bindBuses_le (c : Cell) (direction : Direction) (buses : List (String × Signal)) (x : String) :
    (c.bindBuses direction buses).wireNames.count x ≤ c.wireNames.count x + (busWires buses).count x := by
  induction buses generalizing c with
  | nil => exact Nat.le_add_right _ _
  | cons bus buses ih =>
    have hrest := ih (c.bind bus.1 bus.2 direction)
    have hbus := c.count_wireNames_bind bus.1 bus.2 direction x
    rw [busWires, List.flatMap_cons, List.count_append]
    exact Nat.le_trans hrest (by rw [busWires]; omega)

/-- Buses with distinct names that take the place of nothing with a wire bring all their places. -/
theorem count_bindBuses (direction : Direction) {buses : List (String × Signal)}
    (hnodup : (buses.map Prod.fst).Nodup)
    (hfree : ∀ base ∈ buses.map Prod.fst, ∀ connection, c.ports.get? base = some connection →
      x ∉ connection.signal.wireNames) :
    (c.bindBuses direction buses).wireNames.count x = c.wireNames.count x + (busWires buses).count x := by
  induction buses generalizing c with
  | nil => rfl
  | cons bus buses ih =>
    rw [List.map_cons, List.nodup_cons] at hnodup
    rw [List.map_cons, List.forall_mem_cons] at hfree
    have hbus := c.count_wireNames_bind bus.1 bus.2 direction x
    have hold : ((c.ports.get? bus.1).map (·.signal.wireNames.count x)).getD 0 = 0 := by
      cases hget : c.ports.get? bus.1 with
      | none => rfl
      | some connection => exact List.count_eq_zero.mpr (hfree.1 connection hget)
    have hrest := ih (c := c.bind bus.1 bus.2 direction) hnodup.2 (by
      intro base hbase connection hget
      have hne : base ≠ bus.1 := fun hsame => hnodup.1 (hsame ▸ hbase)
      exact hfree.2 base hbase connection ((Ordered.get?_insert_of_ne c.ports hne _).symm.trans hget))
    have hbuses : busWires (bus :: buses) = bus.2.wireNames ++ busWires buses := List.flatMap_cons
    rw [hbuses, List.count_append, ← Nat.add_assoc, ← hbus, hold]
    exact hrest

end Cell

/-! ### Fresh wires -/

namespace Module

theorem cells_freshWires (m : Module) (count : Nat) : (m.freshWires count).2.cells = m.cells := by
  induction count generalizing m with
  | zero => rfl
  | succ count ih => exact ih (m.freshWire 1).2

theorem connections_freshWires (m : Module) (count : Nat) :
    (m.freshWires count).2.connections = m.connections := by
  induction count generalizing m with
  | zero => rfl
  | succ count ih => exact ih (m.freshWire 1).2

theorem exists_freshName {m : Module} {count : Nat} {x : String} (h : x ∈ (m.freshWires count).1) :
    ∃ k, x = freshName k := by
  induction count generalizing m with
  | zero => cases h
  | succ count ih =>
    rcases List.mem_cons.mp h with rfl | h
    · exact ⟨m.freshNumber, rfl⟩
    · exact ih h

/-- Fresh wires are added one after the other. -/
theorem freshWires_add (m : Module) (first second : Nat) :
    m.freshWires (first + second) =
      ((m.freshWires first).1 ++ ((m.freshWires first).2.freshWires second).1,
        ((m.freshWires first).2.freshWires second).2) := by
  induction first generalizing m with
  | zero => rw [Nat.zero_add]; rfl
  | succ first ih =>
    rw [Nat.succ_add, freshWires, freshWires]
    simp only [ih, List.cons_append]

end Module

/-! ### Filled buses -/

namespace CellBuses

variable {calleeWidth? : String → Option Nat} {x : String}

/-- Whether no bit of the buses is one of the wire `x`. -/
def Free (x : String) (buses : List (String × List (Nat × SignalBit))) : Prop :=
  ∀ bus ∈ buses, x ∉ Signal.wireNames (bus.2.map Prod.snd)

theorem notMem_of_lookup {bits : List (Nat × SignalBit)} {index : Nat} {bit : SignalBit}
    (h : bits.lookup index = some bit) (hx : x ∉ Signal.wireNames (bits.map Prod.snd)) :
    x ∉ Signal.wireNames [bit] := by
  intro hbit
  apply hx
  obtain ⟨before, after, rfl, -⟩ := List.lookup_eq_some_iff.mp h
  rw [List.map_append, List.map_cons, Signal.wireNames_append, Signal.wireNames_cons]
  exact List.mem_append_right _ (List.mem_append_left _ hbit)

/-- The wires of a signal at indices for which there are no bits; the first index is `index`. -/
def fillersFrom (bits : List (Nat × SignalBit)) (index : Nat) : Signal → List String
  | [] => []
  | bit :: signal =>
    match bits.lookup index with
    | some _ => fillersFrom bits (index + 1) signal
    | none => Signal.wireNames [bit] ++ fillersFrom bits (index + 1) signal

/-- The wires of the signals of buses at indices for which there are no bits. -/
def fillers (buses : List (String × List (Nat × SignalBit))) (signals : List (String × Signal)) : List String :=
  (buses.zip signals).flatMap fun (bus, signal) => fillersFrom bus.2 0 signal.2

/-- A bus gets a fresh wire at each index that has no bit. -/
theorem fill_eq (bits : List (Nat × SignalBit)) (m : Module) (index count : Nat) :
    ∃ fresh, (fill bits m index count).2 = (m.freshWires fresh).2 ∧
      fillersFrom bits index (fill bits m index count).1 = (m.freshWires fresh).1 ∧
      ∀ x, x ∉ Signal.wireNames (bits.map Prod.snd) →
        (fill bits m index count).1.wireNames.count x = (m.freshWires fresh).1.count x := by
  induction count generalizing index m with
  | zero => exact ⟨0, rfl, rfl, fun _ _ => rfl⟩
  | succ count ih =>
    rw [fill]
    cases hlookup : bits.lookup index with
    | some bit =>
      obtain ⟨fresh, hmodule, hfillers, hcount⟩ := ih m (index + 1)
      refine ⟨fresh, hmodule, ?_, ?_⟩
      · rw [fillersFrom, hlookup]
        exact hfillers
      · intro x hx
        have hbit := List.count_eq_zero.mpr (notMem_of_lookup hlookup hx)
        dsimp only
        rw [Signal.wireNames_cons, List.count_append, hbit, hcount x hx, Nat.zero_add]
    | none =>
      obtain ⟨fresh, hmodule, hfillers, hcount⟩ := ih (m.freshWire 1).2 (index + 1)
      refine ⟨fresh + 1, hmodule, ?_, ?_⟩
      · rw [fillersFrom, hlookup]
        exact congrArg ((m.freshWire 1).1 :: ·) hfillers
      · intro x hx
        have hcons : ((m.freshWire 1).1 ::
              (fill bits (m.freshWire 1).2 (index + 1) count).1.wireNames).count x =
            ((m.freshWire 1).1 :: ((m.freshWire 1).2.freshWires fresh).1).count x := by
          rw [List.count_cons, List.count_cons, hcount x hx]
        exact hcons

theorem materializeFrom_eq {m : Module} {buses : List (String × List (Nat × SignalBit))}
    {result : List (String × Signal) × Module}
    (h : materializeFrom m calleeWidth? buses = .ok result) :
    result.1.map Prod.fst = buses.map Prod.fst ∧
      ∃ fresh, result.2 = (m.freshWires fresh).2 ∧ fillers buses result.1 = (m.freshWires fresh).1 ∧
        ∀ x, Free x buses → (Cell.busWires result.1).count x = (m.freshWires fresh).1.count x := by
  induction buses generalizing m result with
  | nil =>
    cases h
    exact ⟨rfl, 0, rfl, rfl, fun _ _ => rfl⟩
  | cons bus buses ih =>
    obtain ⟨width, -, h⟩ := bind_eq_ok_iff.mp h
    obtain ⟨-, -, h⟩ := bind_eq_ok_iff.mp h
    obtain ⟨rest, hrest, h⟩ := bind_eq_ok_iff.mp h
    cases h
    obtain ⟨first, hmodule, hfillers, hcount⟩ :=
      fill_eq bus.2 m 0 (max width ((calleeWidth? bus.1).getD 0))
    obtain ⟨hnames, second, hmodule', hfillers', hcount'⟩ := ih hrest
    refine ⟨?_, first + second, ?_, ?_, ?_⟩
    · rw [List.map_cons, List.map_cons, hnames]
    · rw [Module.freshWires_add]
      exact hmodule ▸ hmodule'
    · rw [hmodule] at hfillers'
      rw [Module.freshWires_add, ← hfillers, ← hfillers']
      exact List.flatMap_cons
    · intro x hx
      obtain ⟨hbus, hbuses⟩ := List.forall_mem_cons.mp hx
      have hfirst := hcount x hbus
      have hsecond := hcount' x hbuses
      rw [hmodule] at hsecond
      rw [Module.freshWires_add, List.count_append, ← hfirst, ← hsecond]
      exact List.count_append

/-- Bits that are taken in stay away from a wire that none of them is of. -/
theorem Free.foldl_bindScalars {bs : CellBuses} {c : Cell} (hbuses : Free x bs.entries)
    (hc : x ∉ c.wireNames) (direction : Direction) {bindings : List (String × SignalBit)}
    (hbindings : x ∉ Signal.wireNames (bindings.map Prod.snd)) :
    Free x (bindings.foldl (Cell.bindScalars direction) (c, bs)).2.entries ∧
      x ∉ (bindings.foldl (Cell.bindScalars direction) (c, bs)).1.wireNames := by
  induction bindings generalizing c bs with
  | nil => exact ⟨hbuses, hc⟩
  | cons binding bindings ih =>
    rw [List.map_cons, Signal.wireNames_cons, List.mem_append, not_or] at hbindings
    rw [List.foldl_cons, Cell.bindScalars, take?]
    cases Subscript.split? binding.1 with
    | none => exact ih hbuses (Cell.notMem_wireNames_bind hc hbindings.1) hbindings.2
    | some position =>
      refine ih ?_ hc hbindings.2
      intro bus hbus
      have hget := Ordered.get?_eq_some_iff.mpr hbus
      by_cases hbase : bus.1 = position.1
      · rw [hbase, Ordered.get?_insert_self, Option.some.injEq] at hget
        rw [← hget, List.map_cons, Signal.wireNames_cons, List.mem_append, not_or]
        refine ⟨hbindings.1, ?_⟩
        cases hold : bs.get? position.1 with
        | none => exact List.not_mem_nil
        | some bits => exact hbuses (position.1, bits) (Ordered.get?_eq_some_iff.mp hold)
      · rw [Ordered.get?_insert_of_ne bs hbase] at hget
        exact hbuses bus (Ordered.get?_eq_some_iff.mp hget)

end CellBuses

/-! ### Cells -/

namespace Cell

/-- Of buses on both sides, those of the outputs are bound last, and over those of inputs with the same
names. -/
theorem count_bindBuses_bindBuses {c : Cell} {x : String} (hc : x ∉ c.wireNames)
    {inputs outputs : List (String × Signal)} (hinputs : (inputs.map Prod.fst).Nodup)
    (houtputs : (outputs.map Prod.fst).Nodup) :
    ((c.bindBuses .input inputs).bindBuses .output outputs).wireNames.count x ≤
        (busWires inputs).count x + (busWires outputs).count x ∧
      ((∀ base ∈ inputs.map Prod.fst, base ∉ outputs.map Prod.fst) →
        ((c.bindBuses .input inputs).bindBuses .output outputs).wireNames.count x =
          (busWires inputs).count x + (busWires outputs).count x) := by
  have hnone : c.wireNames.count x = 0 := List.count_eq_zero.mpr hc
  constructor
  · have hfirst := c.count_bindBuses_le .input inputs x
    have hsecond := (c.bindBuses .input inputs).count_bindBuses_le .output outputs x
    omega
  · intro hapart
    have hfirst := count_bindBuses .input hinputs fun _ _ _ hget => notMem_of_get?_ports hc hget
    rw [count_bindBuses .output houtputs, hfirst, hnone, Nat.zero_add]
    intro base hbase connection hget
    have hother : base ∉ inputs.map Prod.fst := fun hinput => hapart base hinput hbase
    rw [get?_ports_bindBuses .input hother] at hget
    exact notMem_of_get?_ports hc hget

def busNames (bindings : List (String × SignalBit)) : List String :=
  (bindings.filterMap (Subscript.split? ·.1)).map Prod.fst

/-- How often a wire that is none of the pins' stands in the cell of an instance: as often as it is among
the fresh wires, if no bus of an input has the name of one of an output. -/
theorem fills_ofInstance {m : Module} {c : Cell} {calleeWidth? : String → Option Nat}
    {inputs outputs : List (String × SignalBit)} {result : Cell × Module} (hc : c.wireNames = [])
    (h : ofInstance m c calleeWidth? inputs outputs = .ok result) :
    ∃ fresh, result.2 = (m.freshWires fresh).2 ∧
      ∀ x, x ∉ Signal.wireNames (inputs.map Prod.snd) → x ∉ Signal.wireNames (outputs.map Prod.snd) →
        result.1.wireNames.count x ≤ (m.freshWires fresh).1.count x ∧
        ((∀ base ∈ busNames inputs, base ∉ busNames outputs) →
          result.1.wireNames.count x = (m.freshWires fresh).1.count x) := by
  obtain ⟨first, hfirst, h⟩ := bind_eq_ok_iff.mp h
  obtain ⟨second, hsecond, h⟩ := bind_eq_ok_iff.mp h
  cases h
  let scalars := inputs.foldl (bindScalars .input) (c, Ordered.empty)
  let scalars' := outputs.foldl (bindScalars .output) (scalars.1, Ordered.empty)
  obtain ⟨hnames, fresh, hmodule, -, hcount⟩ := CellBuses.materializeFrom_eq hfirst
  obtain ⟨hnames', fresh', hmodule', -, hcount'⟩ := CellBuses.materializeFrom_eq hsecond
  have hfresh := m.freshWires_add fresh fresh'
  refine ⟨fresh + fresh', ?_, ?_⟩
  · rw [hfresh, ← hmodule]
    exact hmodule'
  · intro x hx hx'
    have hnone : CellBuses.Free x Ordered.empty.entries := nofun
    have hempty : x ∉ c.wireNames := by
      rw [hc]
      exact List.not_mem_nil
    obtain ⟨hfree, hscalars⟩ := hnone.foldl_bindScalars hempty .input hx
    obtain ⟨hfree', hscalars'⟩ := hnone.foldl_bindScalars hscalars .output hx'
    have hnodup : (first.1.map Prod.fst).Nodup := hnames ▸ scalars.2.nodup_names
    have hnodup' : (second.1.map Prod.fst).Nodup := hnames' ▸ scalars'.2.nodup_names
    obtain ⟨hle, heq⟩ := count_bindBuses_bindBuses hscalars' hnodup hnodup'
    have hfillers : (busWires first.1).count x + (busWires second.1).count x =
        (m.freshWires (fresh + fresh')).1.count x := by
      rw [hfresh, List.count_append, ← hmodule, hcount x hfree, hcount' x hfree']
    rw [hfillers] at hle heq
    refine ⟨hle, fun hapart => heq ?_⟩
    have hgathers := CellBuses.gathers_empty.foldl_bindScalars .input c inputs
    have hgathers' := CellBuses.gathers_empty.foldl_bindScalars .output scalars.1 outputs
    rw [hnames, hnames']
    intro base hbase hbase'
    exact hapart base ((hgathers.names base).mp hbase) ((hgathers'.names base).mp hbase')

end Cell

/-! ### Modules -/

namespace Module

/-- Whether the second module is the first but for wires with the given names; no wire has gone. -/
structure SameBut (names : List String) (m m' : Module) : Prop where
  wires : ∀ x, x ∉ names → m'.wires.get? x = m.wires.get? x
  known : m.wires.names ⊆ m'.wires.names
  cells : m'.cells = m.cells
  connections : m'.connections = m.connections

theorem SameBut.refl (names : List String) (m : Module) : SameBut names m m :=
  ⟨fun _ _ => rfl, List.Subset.refl _, rfl, rfl⟩

theorem SameBut.trans {names : List String} {m m' m'' : Module} (h : SameBut names m m')
    (h' : SameBut names m' m'') : SameBut names m m'' where
  wires x hx := (h'.wires x hx).trans (h.wires x hx)
  known := List.Subset.trans h.known h'.known
  cells := h'.cells.trans h.cells
  connections := h'.connections.trans h.connections

theorem sameBut_addWire {names : List String} {name : String} (hname : name ∈ names) (m : Module)
    (width : Nat) : SameBut names m (m.addWire name width) := by
  refine ⟨?_, m.names_subset_addWire name width, (m.keeps_addWire name width).cells, ?_⟩
  · intro x hx
    have hne : x ≠ name := fun hsame => hx (hsame ▸ hname)
    unfold addWire
    cases m.wires.get? name <;> exact Ordered.get?_insert_of_ne m.wires hne _
  · unfold addWire
    cases m.wires.get? name <;> rfl

theorem sameBut_addWires {names added : List String} (hadded : added ⊆ names) (m : Module) :
    SameBut names m (m.addWires added) := by
  induction added generalizing m with
  | nil => exact .refl names m
  | cons name added ih =>
    obtain ⟨hname, hrest⟩ := List.cons_subset.mp hadded
    exact (sameBut_addWire hname m 1).trans (ih hrest _)

theorem sameBut_modifyWire {names : List String} {name : String} (hname : name ∈ names) (m : Module)
    (f : Wire → Wire) : SameBut names m (m.modifyWire name f) := by
  refine ⟨?_, ?_, rfl, rfl⟩
  · intro x hx
    have hne : x ≠ name := fun hsame => hx (hsame ▸ hname)
    exact Ordered.get?_modify_of_ne m.wires hne f
  · rw [modifyWire, Ordered.names_modify]
    exact List.Subset.refl _

end Module

namespace Cell

theorem wireNames_setParams (c : Cell) (params : List (String × Param)) :
    (c.setParams params).wireNames = c.wireNames := by
  rw [wireNames, ports_setParams, wireNames]

theorem sameBut_noteInit (m : Module) (init : InitValue) (p : Primitive) :
    Module.SameBut p.wireNames m (noteInit m init p) := by
  unfold noteInit
  split
  · next output _ houtput =>
    apply Module.sameBut_modifyWire
    apply List.mem_append_right
    apply List.mem_filterMap.mpr
    exact ⟨_, List.mem_map_of_mem (List.mem_of_head? houtput), rfl⟩
  · exact .refl _ m

/-- Whether no bus of an input of an instance has the name of one of an output. -/
def BusesApart (n : Node) (inputs outputs : List (String × SignalBit)) : Prop :=
  n.kind.model?.isSome → ∀ base ∈ busNames inputs, base ∉ busNames outputs

instance (n : Node) (inputs outputs : List (String × SignalBit)) : Decidable (BusesApart n inputs outputs) :=
  inferInstanceAs (Decidable (_ → _))

/-- Whether a wire that is none of the pins' stands in a cell as often as in a list, or less often where
buses are bound over each other. -/
def Holds (c : Cell) (n : Node) (p : Primitive) (fillers : List String) : Prop :=
  ∀ x, x ∉ p.wireNames → c.wireNames.count x ≤ fillers.count x ∧
    (BusesApart n p.inputBindings p.outputBindings → c.wireNames.count x = fillers.count x)

theorem holds_nil {c : Cell} {n : Node} {p : Primitive} (hc : ∀ x, x ∉ p.wireNames → x ∉ c.wireNames) :
    c.Holds n p [] := by
  intro x hx
  have hnone := List.count_eq_zero.mpr (hc x hx)
  exact ⟨Nat.le_of_eq hnone, fun _ => hnone⟩

theorem notMem_wireNames_ofGate {c : Cell} {p : Primitive} (hc : c.wireNames = []) (x : String)
    (hx : x ∉ p.wireNames) : x ∉ (c.ofGate p.inputSignal p.outputSignal).wireNames := by
  rw [Primitive.wireNames, List.mem_append, not_or] at hx
  have hempty : x ∉ c.wireNames := hc ▸ List.not_mem_nil
  exact notMem_wireNames_bind (notMem_wireNames_bind hempty hx.1) hx.2

/-- The cells of built-in kinds have the bits of the pins and no others, and those of instances have fresh
wires besides. -/
theorem fills_ofKind {m : Module} {d : Design} {n : Node} {p : Primitive} {result : Cell × Module}
    (hprimitive : n.kind.isPrimitive) (h : ofKind m d n p p.inputSignal p.outputSignal = .ok result) :
    ∃ fresh, Module.SameBut p.wireNames (m.freshWires fresh).2 result.2 ∧
      result.1.Holds n p (m.freshWires fresh).1 := by
  unfold ofKind at h
  cases hkind : n.kind with
  | lut | reduceOr | reduceAnd =>
    rw [hkind] at h
    cases h
    exact ⟨0, .refl _ m, holds_nil (notMem_wireNames_ofGate rfl)⟩
  | sop width depth table =>
    rw [hkind] at h
    dsimp only at h
    split at h
    · cases h
      exact ⟨0, .refl _ m, holds_nil (notMem_wireNames_ofGate rfl)⟩
    · cases h
  | register edge init =>
    rw [hkind] at h
    dsimp only at h
    split at h
    · next data clock rest hinputs =>
      cases h
      refine ⟨0, sameBut_noteInit m init p, holds_nil ?_⟩
      intro x hx
      rw [Primitive.wireNames, hinputs, Signal.wireNames_cons, Signal.wireNames_cons clock,
        List.mem_append, List.mem_append, List.mem_append, not_or, not_or, not_or] at hx
      obtain ⟨⟨hdata, hclock, -⟩, houtputs⟩ := hx
      apply notMem_wireNames_bind _ houtputs
      apply notMem_wireNames_bind _ hdata
      exact notMem_wireNames_bind List.not_mem_nil hclock
    · cases h
  | hardBlock model | skipBlock model =>
    have hinputs : (p.inputs.map (·.port)).zip p.inputSignal = p.inputBindings := List.zip_map'
    have houtputs : (p.outputs.map (·.port)).zip p.outputSignal = p.outputBindings := List.zip_map'
    rw [hkind] at h
    dsimp only at h
    rw [hinputs, houtputs] at h
    obtain ⟨fresh, hmodule, hcount⟩ := fills_ofInstance rfl h
    refine ⟨fresh, hmodule ▸ .refl _ _, ?_⟩
    intro x hx
    rw [Primitive.wireNames, Primitive.inputSignal, Primitive.outputSignal, List.mem_append, not_or] at hx
    rw [Primitive.inputBindings, Primitive.outputBindings, List.map_map, List.map_map] at hcount
    obtain ⟨hle, heq⟩ := hcount x hx.1 hx.2
    exact ⟨hle, fun hapart => heq (hapart (by rw [hkind]; rfl))⟩
  | _ =>
    rw [hkind] at hprimitive
    cases hprimitive

/-- What making a cell does to a module: the wires of the pins are added, and fresh wires, which stand in
the cell. -/
theorem fills_ofPrimitive {m : Module} {d : Design} {n : Node} {p : Primitive} {result : Cell × Module}
    (hprimitive : n.kind.isPrimitive) (h : ofPrimitive m d n p = .ok result) :
    ∃ fresh, Module.SameBut p.wireNames ((m.addWires p.wireNames).freshWires fresh).2 result.2 ∧
      result.1.Holds n p ((m.addWires p.wireNames).freshWires fresh).1 := by
  rw [ofPrimitive_eq, ← bind_pure_comp] at h
  obtain ⟨kind, hkind, h⟩ := bind_eq_ok_iff.mp h
  cases h
  unfold Holds
  rw [wireNames_setParams]
  exact fills_ofKind hprimitive hkind

end Cell

/-! ### Filled modules -/

namespace Module

theorem names_freshWires (m : Module) (count : Nat) :
    (m.freshWires count).2.wires.names = m.wires.names ++ (m.freshWires count).1 := by
  rw [Ordered.names, entries_freshWires, List.map_append]
  simp [fillerEntries, Ordered.names, Function.comp_def]

theorem get?_freshWires_of_notMem {m : Module} {count : Nat} {x : String}
    (h : x ∉ (m.freshWires count).1) : (m.freshWires count).2.wires.get? x = m.wires.get? x := by
  induction count generalizing m with
  | zero => rfl
  | succ count ih =>
    obtain ⟨hne, hrest⟩ := List.ne_and_not_mem_of_not_mem_cons h
    exact (ih hrest).trans (Ordered.get?_insert_of_ne m.wires hne _)

theorem SameBut.count_names {names : List String} {m m' : Module} (h : SameBut names m m') {x : String}
    (hx : x ∉ names) : m'.wires.names.count x = m.wires.names.count x := by
  have hmem : x ∈ m'.wires.names ↔ x ∈ m.wires.names := by
    rw [← not_iff_not, ← Ordered.get?_eq_none_iff, ← Ordered.get?_eq_none_iff, h.wires x hx]
  have hcount (m : Module) : m.wires.names.count x = if x ∈ m.wires.names then 1 else 0 :=
    List.Nodup.count m.wires.nodup_names
  rw [hcount, hcount, if_congr hmem rfl rfl]

/-- Whether the wires of a module that are no signals are fillers: fresh wires of one bit that are no ports,
stand in the connections of cells as often as they are wires, or less often, and are not joined. -/
structure Filled (signals : List String) (apart : Prop) (m : Module) : Prop where
  fresh : ∀ x ∈ m.wires.names, x ∉ signals →
    (∃ k, x = freshName k) ∧ m.wires.get? x = some { width := 1 }
  bound : ∀ x, x ∉ signals → m.boundWires.count x ≤ m.wires.names.count x
  boundApart : apart → ∀ x, x ∉ signals → m.boundWires.count x = m.wires.names.count x
  joined : ∀ x, x ∉ signals → x ∉ m.joinedWires

variable {signals names : List String} {apart : Prop} {m m' : Module}

/-- The wires of signals make no difference. -/
theorem Filled.sameBut (hm : m.Filled signals apart) (h : SameBut names m m') (hnames : names ⊆ signals) :
    m'.Filled signals apart := by
  have hbound : m'.boundWires = m.boundWires := by rw [boundWires, h.cells, boundWires]
  have hjoined : m'.joinedWires = m.joinedWires := by rw [joinedWires, h.connections, joinedWires]
  have hcount {x : String} (hx : x ∉ signals) : m'.wires.names.count x = m.wires.names.count x :=
    h.count_names fun hname => hx (hnames hname)
  constructor
  · intro x hmem hx
    rw [h.wires x fun hname => hx (hnames hname)]
    apply hm.fresh x _ hx
    rw [← List.count_pos_iff, ← hcount hx]
    exact List.count_pos_iff.mpr hmem
  · intro x hx
    rw [hbound, hcount hx]
    exact hm.bound x hx
  · intro hapart x hx
    rw [hbound, hcount hx]
    exact hm.boundApart hapart x hx
  · rw [hjoined]
    exact hm.joined

/-- A cell brings the fresh wires that were added for it. -/
theorem Filled.addCell {m₁ : Module} {cell : Cell} {name : String} {fresh : Nat}
    (hm : m.Filled signals apart) (h : SameBut names (m.freshWires fresh).2 m₁) (hnames : names ⊆ signals)
    (hle : ∀ x, x ∉ signals → cell.wireNames.count x ≤ (m.freshWires fresh).1.count x)
    (heq : apart → ∀ x, x ∉ signals → cell.wireNames.count x = (m.freshWires fresh).1.count x)
    (hadd : m₁.addCell name cell = .ok m') : m'.Filled signals apart := by
  unfold Module.addCell at hadd
  split at hadd
  · cases hadd
  · next hnew =>
    cases hadd
    rw [Ordered.contains_iff] at hnew
    have hcells : m₁.cells.entries = m.cells.entries := by rw [h.cells, m.cells_freshWires]
    have hbound (x : String) : (boundWires { m₁ with cells := m₁.cells.insert name cell }).count x =
        m.boundWires.count x + cell.wireNames.count x := by
      rw [boundWires, Ordered.entries_insert_of_notMem hnew, hcells, List.flatMap_append,
        List.flatMap_singleton, List.count_append, boundWires]
    have hcount {x : String} (hx : x ∉ signals) : m₁.wires.names.count x =
        m.wires.names.count x + (m.freshWires fresh).1.count x := by
      rw [h.count_names fun hname => hx (hnames hname), names_freshWires, List.count_append]
    constructor
    · intro x hmem hx
      dsimp only at hmem ⊢
      rw [h.wires x fun hname => hx (hnames hname)]
      by_cases hfiller : x ∈ (m.freshWires fresh).1
      · have hfillers := fillers_of_entries (m.entries_freshWires fresh)
        exact ⟨exists_freshName hfiller, (hfillers.2 x hfiller).2⟩
      · rw [get?_freshWires_of_notMem hfiller]
        apply hm.fresh x _ hx
        rw [← List.count_pos_iff, hcount hx, List.count_eq_zero.mpr hfiller] at hmem
        exact List.count_pos_iff.mp hmem
    · intro x hx
      rw [hbound]
      exact Nat.le_trans (Nat.add_le_add (hm.bound x hx) (hle x hx)) (Nat.le_of_eq (hcount hx).symm)
    · intro hapart x hx
      rw [hbound, hm.boundApart hapart x hx, heq hapart x hx]
      exact (hcount hx).symm
    · intro x hx
      have hjoined : joinedWires { m₁ with cells := m₁.cells.insert name cell } = m.joinedWires := by
        rw [joinedWires, h.connections, m.connections_freshWires, joinedWires]
      rw [hjoined]
      exact hm.joined x hx

/-- The cell of a primitive that is added keeps a module filled, and the wires of its pins are there. -/
theorem Filled.ofPrimitive {m₁ : Module} {d : Design} {n : Node} {p : Primitive} {cell : Cell}
    (hm : m.Filled signals apart) (hprimitive : n.kind.isPrimitive) (hpins : p.wireNames ⊆ signals)
    (hapart : apart → Cell.BusesApart n p.inputBindings p.outputBindings)
    (hmade : Cell.ofPrimitive m d n p = .ok (cell, m₁)) (hadd : m₁.addCell p.name cell = .ok m') :
    m'.Filled signals apart ∧ m.wires.names ++ p.wireNames ⊆ m'.wires.names := by
  obtain ⟨fresh, hsame, hcell⟩ := Cell.fills_ofPrimitive hprimitive hmade
  have hpinned := hm.sameBut (sameBut_addWires (List.Subset.refl _) m) hpins
  constructor
  · apply hpinned.addCell hsame hpins _ _ hadd
    · exact fun x hx => (hcell x fun hpin => hx (hpins hpin)).1
    · exact fun hholds x hx => (hcell x fun hpin => hx (hpins hpin)).2 (hapart hholds)
  · have hwires : m'.wires = m₁.wires := by
      unfold Module.addCell at hadd
      split at hadd
      · cases hadd
      · cases hadd
        rfl
    rw [hwires]
    apply List.Subset.trans _ hsame.known
    rw [names_freshWires]
    apply List.subset_append_of_subset_left
    exact List.append_subset.mpr ⟨m.names_subset_addWires _, m.subset_addWires _⟩

theorem filled_empty (signals : List String) (apart : Prop) : ({} : Module).Filled signals apart where
  fresh := nofun
  bound _ _ := Nat.le_refl 0
  boundApart _ _ _ := rfl
  joined _ _ := List.not_mem_nil

theorem sameBut_addPort {name : String} (hname : name ∈ names) (m : Module) (width : Nat)
    (direction : Direction) : SameBut names m (m.addPort name width direction) :=
  (sameBut_addWire hname m width).trans (sameBut_modifyWire hname _ _)

theorem sameBut_foldl_addPort {added : List String} (hadded : added ⊆ names) (m : Module)
    (direction : Direction) :
    SameBut names m (added.foldl (fun m name => m.addPort name 1 direction) m) := by
  induction added generalizing m with
  | nil => exact .refl names m
  | cons name added ih =>
    obtain ⟨hname, hrest⟩ := List.cons_subset.mp hadded
    exact (sameBut_addPort hname m 1 direction).trans (ih hrest _)

theorem subset_foldl_addPort (m : Module) (direction : Direction) (added : List String) :
    added ⊆ (added.foldl (fun m name => m.addPort name 1 direction) m).wires.names := by
  induction added generalizing m with
  | nil => exact List.nil_subset _
  | cons name added ih =>
    have hname : name ∈ (m.addPort name 1 direction).wires.names := by
      rw [addPort, setDirection, modifyWire, Ordered.names_modify]
      exact m.mem_names_addWire name 1
    have hlater := sameBut_foldl_addPort (List.Subset.refl added) (m.addPort name 1 direction) direction
    exact List.cons_subset.mpr ⟨hlater.known hname, ih _⟩

/-- The wire of a driver is there when its bit is taken. -/
theorem Filled.driverBit (hm : m.Filled signals apart) {driver : Driver}
    (hdriver : Signal.wireNames [driver.bit] ⊆ signals) :
    (m.driverBit driver).2.Filled signals apart ∧ m.wires.names ⊆ (m.driverBit driver).2.wires.names ∧
      Signal.wireNames [driver.bit] ⊆ (m.driverBit driver).2.wires.names := by
  rw [driverBit_snd]
  refine ⟨?_, m.names_subset_addWires _, m.subset_addWires _⟩
  exact hm.sameBut (sameBut_addWires (List.Subset.refl _) m) hdriver

theorem Filled.connect (hm : m.Filled signals apart) {driven driving : Signal}
    (hdriven : driven.wireNames ⊆ signals) (hdriving : driving.wireNames ⊆ signals)
    (h : m.connect driven driving = .ok m') : m'.Filled signals apart := by
  unfold Module.connect at h
  split at h
  · cases h
    refine ⟨hm.fresh, hm.bound, hm.boundApart, ?_⟩
    intro x hx
    rw [joinedWires, List.flatMap_append, List.flatMap_singleton, List.mem_append, List.mem_append, not_or,
      not_or]
    exact ⟨hm.joined x hx, fun hdrivenx => hx (hdriven hdrivenx), fun hdrivingx => hx (hdriving hdrivingx)⟩
  · cases h

theorem wires_connect {driven driving : Signal} (h : m.connect driven driving = .ok m') :
    m'.wires = m.wires := by
  unfold Module.connect at h
  split at h
  · cases h
    rfl
  · cases h

theorem names_numberPorts (m : Module) : m.numberPorts.wires.names = m.wires.names :=
  Ordered.names_mapScan _ _ m.wires

/-- Numbering the ports leaves the fillers alone. -/
theorem Filled.numberPorts (hm : m.Filled signals apart) : m.numberPorts.Filled signals apart := by
  have hnames := m.names_numberPorts
  constructor
  · intro x hmem hx
    rw [hnames] at hmem
    obtain ⟨hname, hwire⟩ := hm.fresh x hmem hx
    exact ⟨hname, Ordered.get?_mapScan (fun _ => rfl) hwire⟩
  · rw [hnames]
    exact hm.bound
  · rw [hnames]
    exact hm.boundApart
  · exact hm.joined

end Module

end CircuitLowering
