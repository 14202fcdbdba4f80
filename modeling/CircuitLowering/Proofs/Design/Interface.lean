import CircuitLowering.Design.Instance
import CircuitLowering.Proofs.Design.Ports
import CircuitLowering.Proofs.Design.Wires
import CircuitLowering.Proofs.Queries

/-!
# Interfaces of modules

The interface of a module is what is seen of it from outside: the names and the directions of its ports,
in the order of their places.  A wire has one direction at most, so a name is a port once.  What is added
to a module when cells are made and signals are joined are inner wires, so the interface stays as it is
(`Cell.keeps_ofPrimitive`); a wire that is a port already keeps its direction when it is added again.
-/

namespace CircuitLowering

namespace Module

def portsAmong (wires : List (String × Wire)) : List (String × Direction) :=
  wires.filterMap fun wire => wire.2.direction.map (wire.1, ·)

/-- The ports with their directions, in the order of their places. -/
def interface (m : Module) : List (String × Direction) := portsAmong m.ports

/-- The ports with their directions, in the order in which their wires were added. -/
def directions (m : Module) : List (String × Direction) := portsAmong m.wires.entries

variable {m : Module} {name : String}

/-! ### Numbered ports -/

theorem portsAmong_placed (first : Nat) (ports : List (String × Wire)) :
    portsAmong (placed first ports) = portsAmong ports := by
  have hports : (ports.zipIdx first).map Prod.fst = ports := List.zipIdx_map_fst first ports
  conv_rhs => rw [← hports]
  rw [portsAmong, portsAmong, placed, List.filterMap_map, List.filterMap_map]
  rfl

theorem portsAmong_filter_isPort (wires : List (String × Wire)) :
    portsAmong (wires.filter (·.2.isPort)) = portsAmong wires := by
  rw [portsAmong, portsAmong, List.filterMap_filter]
  refine List.filterMap_congr fun wire _ => ?_
  cases hdirection : wire.2.direction <;> simp [Wire.isPort, hdirection]

/-- Once the ports are numbered the places follow the order of the wires. -/
theorem interface_numberPorts (m : Module) : m.numberPorts.interface = m.directions := by
  rw [interface, ports_numberPorts, portsAmong_placed, portsAmong_filter_isPort, directions]

/-! ### Ports of one bit -/

/-- Ports of one bit under the names of a list, each once, with the directions that `side` says. -/
def scalarPorts (names : List String) (side : String → Direction) : List (String × Wire) :=
  names.eraseDups.map fun name => scalarPort (name, side name)

theorem portsAmong_scalarPorts (names : List String) (side : String → Direction) :
    portsAmong (scalarPorts names side) = names.eraseDups.map fun name => (name, side name) := by
  rw [portsAmong, scalarPorts, List.filterMap_map, ← List.filterMap_eq_map]
  rfl

/-- A wire that is wide enough is there already. -/
theorem addWire_of_le {w : Wire} (h : m.wires.get? name = some w) {width : Nat}
    (hwidth : width ≤ w.width) : m.addWire name width = m := by
  have hsame : m.wires.insert name { w with width := max w.width width } = m.wires := by
    rw [Nat.max_eq_left hwidth]
    exact Ordered.insert_of_get? h
  rw [addWire, h]
  dsimp only
  rw [hsame]

/-- A port that is added again has the direction with which it is added last. -/
theorem entries_addPort_scalarPorts {names : List String} {side : String → Direction}
    (h : m.wires.entries = scalarPorts names side) (name : String) (direction : Direction) :
    (m.addPort name 1 direction).wires.entries =
      scalarPorts (names ++ [name]) fun other => if other = name then direction else side other := by
  by_cases hname : name ∈ names
  · have hget : m.wires.get? name = some (scalarPort (name, side name)).2 := by
      rw [Ordered.get?_eq_some_iff, h]
      exact List.mem_map.mpr ⟨name, List.mem_eraseDups.mpr hname, rfl⟩
    rw [addPort, addWire_of_le hget (Nat.le_refl 1), scalarPorts, eraseDups_concat, if_pos hname]
    change m.wires.entries.map _ = _
    rw [h, scalarPorts, List.map_map]
    refine List.map_congr_left fun other _ => ?_
    by_cases hother : other = name <;> simp [scalarPort, hother]
  · have hnew : name ∉ m.wires.names := by
      rw [Ordered.names, h, scalarPorts, List.map_map]
      simpa [scalarPort, Function.comp_def] using hname
    rw [entries_addPort_of_notMem hnew, h, scalarPorts, scalarPorts, eraseDups_concat, if_neg hname,
      List.map_append, List.map_singleton, if_pos rfl]
    refine congrArg (· ++ _) (List.map_congr_left fun other hother => ?_)
    have hne : other ≠ name := fun hsame => hname (hsame ▸ List.mem_eraseDups.mp hother)
    rw [if_neg hne]

/-- The boundary of a module: ports are added one after the other, all on one side. -/
theorem entries_foldl_addPort_scalarPorts {names : List String} {side : String → Direction}
    (h : m.wires.entries = scalarPorts names side) (direction : Direction) (more : List String) :
    (more.foldl (fun m name => m.addPort name 1 direction) m).wires.entries =
      scalarPorts (names ++ more) fun name => if name ∈ more then direction else side name := by
  induction more generalizing m names side with
  | nil => simpa using h
  | cons name more ih =>
    rw [List.foldl_cons, ih (entries_addPort_scalarPorts h name direction), List.append_assoc,
      List.singleton_append]
    refine congrArg (scalarPorts _) (funext fun other => ?_)
    by_cases hmore : other ∈ more <;> simp [hmore]

/-! ### Inner wires -/

/-- Whether the second module is the first with no more than inner wires added: it has the same ports,
with the same directions, and the same cells. -/
structure Keeps (m m' : Module) : Prop where
  directions : m'.directions = m.directions
  cells : m'.cells = m.cells

theorem Keeps.refl (m : Module) : m.Keeps m := ⟨rfl, rfl⟩

theorem Keeps.trans {m m' m'' : Module} (h : m.Keeps m') (h' : m'.Keeps m'') : m.Keeps m'' :=
  ⟨h'.directions.trans h.directions, h'.cells.trans h.cells⟩

theorem keeps_addWire (m : Module) (name : String) (width : Nat) : m.Keeps (m.addWire name width) := by
  unfold addWire
  cases hold : m.wires.get? name with
  | none =>
    refine ⟨(congrArg portsAmong
      (Ordered.entries_insert_of_notMem (Ordered.get?_eq_none_iff.mp hold) _)).trans ?_, rfl⟩
    rw [portsAmong, List.filterMap_append]
    exact List.append_nil _
  | some w => exact ⟨Ordered.filterMap_write _ hold rfl, rfl⟩

theorem keeps_freshWire (m : Module) (width : Nat) : m.Keeps (m.freshWire width).2 := by
  refine ⟨?_, rfl⟩
  rw [directions, entries_freshWire, portsAmong, List.filterMap_append]
  exact List.append_nil _

theorem keeps_modifyWire (m : Module) (name : String) {f : Wire → Wire}
    (hf : ∀ w, (f w).direction = w.direction) : m.Keeps (m.modifyWire name f) := by
  refine ⟨(List.filterMap_map).trans (List.filterMap_congr fun wire _ => ?_), rfl⟩
  dsimp only [Function.comp_apply]
  split
  · rw [hf]
  · rfl

theorem keeps_driverBit (m : Module) (d : Driver) : m.Keeps (m.driverBit d).2 := by
  unfold driverBit
  cases d.constant with
  | some value => exact .refl m
  | none => exact m.keeps_addWire d.name 1

theorem keeps_driverBits (m : Module) (ds : List Driver) : m.Keeps (m.driverBits ds).2 := by
  induction ds generalizing m with
  | nil => exact .refl m
  | cons d ds ih => exact (m.keeps_driverBit d).trans (ih (m.driverBit d).2)

theorem keeps_outputBits (m : Module) (outputs : List OutputBinding) :
    m.Keeps (m.outputBits outputs).2 := by
  unfold outputBits
  induction outputs generalizing m with
  | nil => exact .refl m
  | cons output outputs ih => exact (m.keeps_addWire output.name 1).trans (ih _)

/-! ### Cells and connections -/

theorem directions_addCell {cell : Cell} {m' : Module} (h : m.addCell name cell = .ok m') :
    m'.directions = m.directions := by
  unfold addCell at h
  split at h
  · cases h
  · cases h
    rfl

theorem keeps_connect {driven driving : Signal} {m' : Module} (h : m.connect driven driving = .ok m') :
    m.Keeps m' := by
  unfold connect at h
  split at h
  · cases h
    exact ⟨rfl, rfl⟩
  · cases h

end Module

/-! ### Buses of cells -/

namespace CellBuses

variable {calleeWidth? : String → Option Nat}

theorem keeps_fill (bits : List (Nat × SignalBit)) (m : Module) (index count : Nat) :
    m.Keeps (fill bits m index count).2 := by
  induction count generalizing index m with
  | zero => exact .refl m
  | succ count ih =>
    rw [fill]
    cases bits.lookup index with
    | some bit => exact ih m (index + 1)
    | none => exact (m.keeps_freshWire 1).trans (ih (m.freshWire 1).2 (index + 1))

theorem keeps_materializeFrom {m : Module} {buses : List (String × List (Nat × SignalBit))}
    {result : List (String × Signal) × Module}
    (h : materializeFrom m calleeWidth? buses = .ok result) : m.Keeps result.2 := by
  induction buses generalizing m result with
  | nil =>
    cases h
    exact .refl m
  | cons bus buses ih =>
    obtain ⟨width, -, h⟩ := bind_eq_ok_iff.mp h
    obtain ⟨-, -, h⟩ := bind_eq_ok_iff.mp h
    obtain ⟨rest, hrest, h⟩ := bind_eq_ok_iff.mp h
    cases h
    have hlater := ih hrest
    exact (keeps_fill bus.2 m 0 _).trans hlater

end CellBuses

/-! ### Cells of primitives -/

namespace Cell

variable {m : Module} {result : Cell × Module}

theorem keeps_ofInstance {c : Cell} {calleeWidth? : String → Option Nat}
    {inputs outputs : List (String × SignalBit)}
    (h : ofInstance m c calleeWidth? inputs outputs = .ok result) : m.Keeps result.2 := by
  obtain ⟨first, hfirst, h⟩ := bind_eq_ok_iff.mp h
  obtain ⟨second, hsecond, h⟩ := bind_eq_ok_iff.mp h
  cases h
  exact (CellBuses.keeps_materializeFrom hfirst).trans (CellBuses.keeps_materializeFrom hsecond)

theorem keeps_noteInit (m : Module) (init : InitValue) (p : Primitive) :
    m.Keeps (noteInit m init p) := by
  unfold noteInit
  split
  · exact m.keeps_modifyWire _ fun w => rfl
  · exact .refl m

theorem keeps_ofKind {d : Design} {n : Node} {p : Primitive} {inputs outputs : Signal}
    (h : ofKind m d n p inputs outputs = .ok result) : m.Keeps result.2 := by
  unfold ofKind at h
  split at h
  · cases h
    exact .refl m
  · split at h
    · cases h
      exact .refl m
    · cases h
  · cases h
    exact .refl m
  · cases h
    exact .refl m
  · split at h
    · cases h
      exact keeps_noteInit m _ p
    · cases h
  · exact keeps_ofInstance h

/-- The wires that the cell of a primitive needs are no new ports, and the cell is still to be added. -/
theorem keeps_ofPrimitive {d : Design} {n : Node} {p : Primitive}
    (h : ofPrimitive m d n p = .ok result) : m.Keeps result.2 := by
  obtain ⟨kind, hkind, h⟩ := bind_eq_ok_iff.mp h
  cases h
  have hlater := keeps_ofKind hkind
  exact (m.keeps_driverBits _).trans ((Module.keeps_outputBits _ p.outputs).trans hlater)

end Cell

end CircuitLowering
