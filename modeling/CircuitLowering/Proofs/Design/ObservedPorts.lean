import CircuitLowering.Proofs.Design.Buses
import CircuitLowering.Proofs.Design.Cells
import CircuitLowering.Proofs.Design.Regrouping

/-!
# Ports that are observed as bits of buses

Ports of one bit are observed one after the other, and then the buses that their names speak of are
added.  Of the observed ports those are joined to a bus whose names are the names that are written for
their base and index; a name with leading zeros is read but never looked for.  A bus stays a port unless
it has the name of a bit of a later one, which takes it for a port of one bit.  In all other cases each
observed port becomes an inner wire with one connection to its bit (`Buses.regroupsAll_iff`).
-/

namespace CircuitLowering

open Text

namespace Buses

variable {m m' : Module} {buses : List (String × Bus)} {ports : List (String × Direction)}

/-! ### Buses that stay ports -/

/-- Whether buses can be added one after the other so that each stays a port: their bits have no wires
but those of one bit, and no bus has the name of a bit of a later one. -/
structure Clear (m : Module) (buses : List (String × Bus)) : Prop where
  narrow : ∀ bus ∈ buses, ∀ index < bus.2.width, IsNarrow m.widths (Subscript.join bus.1 index)
  order : buses.Pairwise fun earlier later =>
    ∀ index < later.2.width, earlier.1 ≠ Subscript.join later.1 index

/-- What one bus does to wires: its own is a port, and its bits are not. -/
theorem exists_materializeBus_of_narrow {bus : String × Bus}
    (h : ∀ index < bus.2.width, IsNarrow m.widths (Subscript.join bus.1 index)) :
    ∃ m', materializeBus m bus.1 bus.2 = .ok m' ∧
      m'.connections = m.connections ++ joints m.wires.names bus ∧
      (∃ w, m'.wires.get? bus.1 = some w ∧ w.direction = some bus.2.direction ∧
        bus.2.width ≤ w.width) ∧
      ∀ name ≠ bus.1, m'.wires.get? name =
        (m.wires.get? name).map (release (bitNames bus.1 bus.2.width) name) := by
  obtain ⟨m', hmake, hwires, hconnections, -⟩ :=
    exists_materializeBus fun index hindex => Module.isNarrow_widths_iff.mp (h index hindex)
  have hget (name : String) : m'.wires.get? name =
      ((m.addPort bus.1 bus.2.width bus.2.direction).wires.get? name).map
        (release (bitNames bus.1 bus.2.width) name) := by
    rw [Ordered.get?, hwires, lookup_withdrawn]
    rfl
  refine ⟨m', hmake, hconnections, ?_, ?_⟩
  · obtain ⟨w, hw, hdirection, hwidth⟩ :=
      m.exists_get?_addPort bus.1 bus.2.width bus.2.direction
    have hself : bus.1 ∉ bitNames bus.1 bus.2.width := by
      intro hmem
      obtain ⟨index, -, hname⟩ := List.mem_map.mp hmem
      exact Subscript.join_ne_base bus.1 index hname
    refine ⟨w, ?_, hdirection, hwidth⟩
    rw [hget, hw, Option.map_some, release, if_neg hself]
  · intro name hname
    rw [hget, Module.get?_addPort_of_ne m hname]

theorem widths_of_release {names : List String} {name : String}
    (h : m'.wires.get? name = (m.wires.get? name).map (release names name)) :
    m'.widths name = m.widths name := by
  rw [Module.widths, Module.widths, h, Option.map_map]
  congr 1
  funext w
  exact width_release names name w

theorem mem_names_of_release {names : List String} {name : String}
    (h : m'.wires.get? name = (m.wires.get? name).map (release names name)) :
    name ∈ m'.wires.names ↔ name ∈ m.wires.names := by
  rw [← not_iff_not, ← Ordered.get?_eq_none_iff, ← Ordered.get?_eq_none_iff, h, Option.map_eq_none_iff]

/-- A bus that is added leaves the others clear. -/
theorem Clear.tail {bus : String × Bus} (h : Clear m (bus :: buses))
    (hwires : ∀ name ≠ bus.1, m'.wires.get? name =
      (m.wires.get? name).map (release (bitNames bus.1 bus.2.width) name)) : Clear m' buses := by
  obtain ⟨hfirst, horder⟩ := List.pairwise_cons.mp h.order
  refine ⟨?_, horder⟩
  intro other hother index hindex
  have hne := (hfirst other hother index hindex).symm
  rw [IsNarrow, widths_of_release (hwires _ hne)]
  exact h.narrow other (List.mem_cons_of_mem bus hother) index hindex

/-- All buses: each is a port, and all their bits are inner wires that are joined. -/
theorem exists_foldlM_materializeBus (hnodup : (buses.map Prod.fst).Nodup) (hclear : Clear m buses) :
    ∃ m', buses.foldlM (fun m (base, bus) => materializeBus m base bus) m = .ok m' ∧
      m'.connections = m.connections ++ buses.flatMap (joints m.wires.names) ∧
      (∀ bus ∈ buses, ∃ w, m'.wires.get? bus.1 = some w ∧ w.direction = some bus.2.direction ∧
        bus.2.width ≤ w.width) ∧
      ∀ name ∉ buses.map Prod.fst, m'.wires.get? name = (m.wires.get? name).map
        (release (buses.flatMap fun bus => bitNames bus.1 bus.2.width) name) := by
  induction buses generalizing m with
  | nil =>
    refine ⟨m, rfl, (List.append_nil _).symm, by simp, ?_⟩
    intro name _
    rw [List.flatMap_nil, release_nil, Option.map_id_fun, id]
  | cons bus buses ih =>
    rw [List.map_cons, List.nodup_cons] at hnodup
    obtain ⟨hfirst, -⟩ := List.pairwise_cons.mp hclear.order
    obtain ⟨m₁, hmake, hconnections, ⟨w, hw, hdirection, hwidth⟩, hothers⟩ :=
      exists_materializeBus_of_narrow (hclear.narrow bus List.mem_cons_self)
    obtain ⟨m', hfold, hconnections', hports', hothers'⟩ := ih hnodup.2 (hclear.tail hothers)
    refine ⟨m', ?_, ?_, ?_, ?_⟩
    · rw [List.foldlM_cons]
      exact bind_eq_ok_iff.mpr ⟨m₁, hmake, hfold⟩
    · -- the first bus is no bit of the others, so they find the wires that were there before it
      have hsame : buses.flatMap (joints m₁.wires.names) = buses.flatMap (joints m.wires.names) := by
        refine List.flatMap_congr fun other hother => ?_
        have hfilter : (List.range other.2.width).filter (Subscript.join other.1 · ∈ m₁.wires.names) =
            (List.range other.2.width).filter (Subscript.join other.1 · ∈ m.wires.names) := by
          refine List.filter_congr fun index hindex => ?_
          have hne := (hfirst other hother index (List.mem_range.mp hindex)).symm
          rw [decide_eq_decide]
          exact mem_names_of_release (hothers _ hne)
        rw [joints, joints, hfilter]
      rw [hconnections', hconnections, hsame, List.append_assoc, List.flatMap_cons]
    · intro other hother
      rcases List.mem_cons.mp hother with rfl | hother
      · have hbit : other.1 ∉ buses.flatMap fun bus => bitNames bus.1 bus.2.width := by
          intro hmem
          obtain ⟨later, hlater, hname⟩ := List.mem_flatMap.mp hmem
          obtain ⟨index, hindex, hname⟩ := List.mem_map.mp hname
          exact hfirst later hlater index (List.mem_range.mp hindex) hname.symm
        refine ⟨w, ?_, hdirection, hwidth⟩
        rw [hothers' other.1 hnodup.1, hw, Option.map_some, release, if_neg hbit]
      · exact hports' other hother
    · intro name hname
      rw [List.map_cons, List.mem_cons, not_or] at hname
      rw [hothers' name hname.2, hothers name hname.1, Option.map_map, List.flatMap_cons]
      congr 1
      funext w
      exact (release_append _ _ name w).symm

/-- Buses of which each is a port in the end were clear: a wire of several bits cannot be joined, and a
bus that was taken for a bit is no port any longer. -/
theorem clear_of_isPort (hnodup : (buses.map Prod.fst).Nodup)
    (h : buses.foldlM (fun m (base, bus) => materializeBus m base bus) m = .ok m')
    (hports : ∀ bus ∈ buses, ∃ w, m'.wires.get? bus.1 = some w ∧ w.isPort = true) :
    Clear m buses := by
  induction buses generalizing m with
  | nil => exact ⟨by simp, .nil⟩
  | cons bus buses ih =>
    rw [List.map_cons, List.nodup_cons] at hnodup
    rw [List.foldlM_cons] at h
    obtain ⟨m₁, hmake, hfold⟩ := bind_eq_ok_iff.mp h
    change materializeBus m bus.1 bus.2 = .ok m₁ at hmake
    obtain ⟨hport, hports⟩ := List.forall_mem_cons.mp hports
    have hnarrow : ∀ index < bus.2.width, IsNarrow m.widths (Subscript.join bus.1 index) := by
      have hmade := answersIff_materializeBus m bus.1 bus.2
      rw [hmake] at hmade
      exact hmade.1
    obtain ⟨m₂, hmake₂, -, -, hothers⟩ := exists_materializeBus_of_narrow hnarrow
    obtain rfl : m₁ = m₂ := Except.ok.inj (hmake.symm.trans hmake₂)
    have hrest := ih hnodup.2 hfold hports
    obtain ⟨m₃, hfold₃, -, -, hothers'⟩ := exists_foldlM_materializeBus hnodup.2 hrest
    obtain rfl : m' = m₃ := Except.ok.inj (hfold.symm.trans hfold₃)
    have hfirst : ∀ other ∈ buses, ∀ index < other.2.width, bus.1 ≠ Subscript.join other.1 index := by
      intro other hother index hindex hname
      have hbit : bus.1 ∈ buses.flatMap fun bus => bitNames bus.1 bus.2.width :=
        List.mem_flatMap.mpr ⟨other, hother, List.mem_map.mpr ⟨index, List.mem_range.mpr hindex,
          hname.symm⟩⟩
      obtain ⟨w, hw, hisPort⟩ := hport
      rw [hothers' bus.1 hnodup.1, Option.map_eq_some_iff] at hw
      obtain ⟨old, -, rfl⟩ := hw
      rw [release, if_pos hbit] at hisPort
      cases hisPort
    refine ⟨List.forall_mem_cons.mpr ⟨hnarrow, ?_⟩, List.pairwise_cons.mpr ⟨hfirst, hrest.order⟩⟩
    intro other hother index hindex
    have hne := (hfirst other hother index hindex).symm
    rw [IsNarrow, ← widths_of_release (hothers _ hne)]
    exact hrest.narrow other hother index hindex

/-! ### Connections at a wire -/

def connectionsAt (name : String) (connections : List (Signal × Signal)) : List (Signal × Signal) :=
  connections.filter fun connection =>
    name ∈ Signal.wireNames connection.1 ++ Signal.wireNames connection.2

/-- The connection between a wire of one bit and a bit of a bus, the driven side first. -/
def link (direction : Direction) (name base : String) (index : Nat) : Signal × Signal :=
  match direction with
  | .input => ([.wire name 0], [.wire base index])
  | .output => ([.wire base index], [.wire name 0])

theorem joint_eq_link (direction : Direction) (base : String) (index : Nat) :
    joint direction base index = link direction (Subscript.join base index) base index := by
  cases direction <;> rfl

theorem mem_wireNames_joint {name base : String} {direction : Direction} {index : Nat} :
    name ∈ Signal.wireNames (joint direction base index).1 ++
        Signal.wireNames (joint direction base index).2 ↔
      name = Subscript.join base index ∨ name = base := by
  cases direction with
  | input => simp [joint, Signal.wireNames]
  | output => simp [joint, Signal.wireNames, or_comm]

theorem mem_flatMap_joints {names : List String} {connection : Signal × Signal} :
    connection ∈ buses.flatMap (joints names) ↔
      ∃ bus ∈ buses, ∃ index < bus.2.width, Subscript.join bus.1 index ∈ names ∧
        joint bus.2.direction bus.1 index = connection := by
  simp only [joints, List.mem_flatMap, List.mem_map, List.mem_filter, List.mem_range,
    decide_eq_true_eq, and_assoc]

/-- The connection of a bit is the only one at its wire. -/
theorem connectionsAt_joints {names : List String} {base : String} {bus : Bus} {index : Nat}
    (hnodup : (buses.map Prod.fst).Nodup) (hname : Subscript.join base index ∉ buses.map Prod.fst)
    (hbus : (base, bus) ∈ buses)
    (hindex : index < bus.width) (hwire : Subscript.join base index ∈ names) :
    connectionsAt (Subscript.join base index) (buses.flatMap (joints names)) =
      [joint bus.direction base index] := by
  have hdistinct : (buses.flatMap (joints names)).Nodup :=
    nodup_flatMap_joint _ hnodup fun bus _ => List.nodup_range.filter _
  rw [connectionsAt, ← List.perm_singleton,
    List.perm_ext_iff_of_nodup (hdistinct.filter _) (List.nodup_singleton _)]
  intro connection
  rw [List.mem_filter, mem_flatMap_joints, decide_eq_true_eq, List.mem_singleton]
  constructor
  · rintro ⟨⟨other, hother, otherIndex, hotherIndex, -, rfl⟩, hat⟩
    rcases mem_wireNames_joint.mp hat with hsame | hsame
    · obtain ⟨hsameBase, rfl⟩ := Subscript.join_injective hsame
      obtain rfl : (base, bus) = other := List.inj_on_of_nodup_map hnodup hbus hother hsameBase
      rfl
    · rw [hsame] at hname
      exact absurd (List.mem_map_of_mem hother) hname
  · rintro rfl
    exact ⟨⟨(base, bus), hbus, index, hindex, hwire, rfl⟩, mem_wireNames_joint.mpr (.inl rfl)⟩

theorem connectionsAt_joints_eq_nil {names : List String} {name : String}
    (hname : name ∉ buses.map Prod.fst)
    (hbit : name ∉ buses.flatMap fun bus => bitNames bus.1 bus.2.width) :
    connectionsAt name (buses.flatMap (joints names)) = [] := by
  rw [connectionsAt, List.filter_eq_nil_iff]
  intro connection hconnection
  obtain ⟨bus, hbus, index, hindex, -, rfl⟩ := mem_flatMap_joints.mp hconnection
  rw [decide_eq_true_eq, mem_wireNames_joint, not_or]
  constructor
  · rintro rfl
    exact hbit (List.mem_flatMap.mpr ⟨bus, hbus, List.mem_map_of_mem (List.mem_range.mpr hindex)⟩)
  · rintro rfl
    exact hname (List.mem_map_of_mem hbus)

/-! ### Observed ports -/

/-- The buses of which the bits are observed, one port after the other. -/
def ofPorts (ports : List (String × Direction)) : Except Fault Buses :=
  ports.foldlM (fun bs (name, direction) => bs.observe name direction) .empty

/-- Whether ports of a module can be observed: they are of one bit, their indices have successors and
none has the name of the base of one of them. -/
structure Observes (m : Module) (ports : List (String × Direction)) : Prop where
  scalar : ∀ port ∈ ports, ∃ w, m.wires.get? port.1 = some w ∧ w.width = 1 ∧ w.isPort = true
  indices : ∀ port ∈ ports, ∀ bit ∈ Subscript.split? port.1, bit.2 + 1 < Subscript.indexLimit
  apart : ∀ port ∈ ports, ∀ other ∈ ports, ∀ bit ∈ Subscript.split? other.1, bit.1 ≠ port.1

def HasBit (m : Module) (base : String) (index : Nat) (direction : Direction) : Prop :=
  ∃ w, m.wires.get? base = some w ∧ w.direction = some direction ∧ index + 1 ≤ w.width

/-- Whether a wire of one bit has become an inner one that one new connection joins to a bit of a bus, and
no other new connection has part in it. -/
structure Regrouped (m m' : Module) (name base : String) (index : Nat) (direction : Direction) : Prop where
  inner : ∃ w, m'.wires.get? name = some w ∧ w.isPort = false
  joined : ∃ new, m'.connections = m.connections ++ new ∧
    connectionsAt name new = [link direction name base index]
  bus : HasBit m' base index direction

/-- Whether a wire is as it was and has no new connection. -/
structure LeftAlone (m m' : Module) (name : String) : Prop where
  kept : m'.wires.get? name = m.wires.get? name
  unjoined : ∃ new, m'.connections = m.connections ++ new ∧ connectionsAt name new = []

def RegroupsAll (m : Module) (ports : List (String × Direction)) (bs : Buses) : Prop :=
  ∃ m', bs.materialize m = .ok m' ∧
    ∀ port ∈ ports, ∀ base index, Subscript.split? port.1 = some (base, index) →
      ∃ direction, Regrouped m m' port.1 base index direction

section Observes

variable {bs : Buses}

/-- Ports can be observed where all their indices have successors. -/
theorem exists_ofPorts
    (h : ∀ port ∈ ports, ∀ bit ∈ Subscript.split? port.1, bit.2 + 1 < Subscript.indexLimit) :
    ∃ bs, ofPorts ports = .ok bs ∧ bs.Collects (ports.filterMap (Subscript.split? ·.1)) := by
  refine (answersIff_foldlM_observe collects_empty ports).exists_ok ?_
  intro bit hbit
  obtain ⟨port, hport, hsplit⟩ := List.mem_filterMap.mp hbit
  exact h port hport bit hsplit

variable (h : Observes m ports) (hbs : bs.Collects (ports.filterMap (Subscript.split? ·.1)))
include hbs

theorem exists_port_of_mem {bus : String × Bus} (hbus : bus ∈ bs.entries) :
    ∃ port ∈ ports, ∃ index, Subscript.split? port.1 = some (bus.1, index) := by
  obtain ⟨index, hbit⟩ := hbs.exists_bit hbus
  obtain ⟨port, hport, hsplit⟩ := List.mem_filterMap.mp hbit
  exact ⟨port, hport, index, hsplit⟩

theorem isBase_of_mem {bus : String × Bus} (hbus : bus ∈ bs.entries) : Subscript.IsBase bus.1 := by
  obtain ⟨port, -, index, hsplit⟩ := exists_port_of_mem hbs hbus
  obtain ⟨digits, hspells, -⟩ := Subscript.split?_eq_some_iff.mp hsplit
  exact hspells.isBase

/-- Buses that all are ports in the end were clear. -/
theorem clear_of_regroupsAll (hregroups : RegroupsAll m ports bs) : Clear m bs.entries := by
  obtain ⟨m', hmake, hregrouped⟩ := hregroups
  refine clear_of_isPort bs.nodup_names hmake ?_
  intro bus hbus
  obtain ⟨port, hport, index, hsplit⟩ := exists_port_of_mem hbs hbus
  obtain ⟨direction, hport⟩ := hregrouped port hport bus.1 index hsplit
  obtain ⟨w, hw, hdirection, -⟩ := hport.bus
  refine ⟨w, hw, ?_⟩
  rw [Wire.isPort, hdirection]
  rfl

include h

theorem Observes.width_le {bus : String × Bus} (hbus : bus ∈ bs.entries) :
    bus.2.width ≤ Subscript.indexLimit := by
  rw [hbs.width_eq hbus]
  refine busWidth_le ?_ bus.1
  intro bit hbit
  obtain ⟨port, hport, hsplit⟩ := List.mem_filterMap.mp hbit
  exact Nat.lt_of_succ_lt (h.indices port hport bit hsplit)

theorem Observes.notMem_names {port : String × Direction} (hport : port ∈ ports) :
    port.1 ∉ bs.names := by
  intro hmem
  obtain ⟨bus, hbus, hname⟩ := List.mem_map.mp hmem
  obtain ⟨other, hother, index, hsplit⟩ := exists_port_of_mem hbs hbus
  exact h.apart port hport other hother _ hsplit hname

/-- A name that is read as a bit of a bus but written in another way is not among the names of bits. -/
theorem Observes.notMem_bitNames {port : String × Direction} {base : String} {index : Nat}
    (hsplit : Subscript.split? port.1 = some (base, index))
    (hother : port.1 ≠ Subscript.join base index) :
    port.1 ∉ bs.entries.flatMap fun bus => bitNames bus.1 bus.2.width := by
  intro hmem
  obtain ⟨bus, hbus, hname⟩ := List.mem_flatMap.mp hmem
  obtain ⟨i, hi, hname⟩ := List.mem_map.mp hname
  have hlimit := (List.mem_range.mp hi).trans_le (h.width_le hbs hbus)
  have hread := Subscript.split?_join (isBase_of_mem hbs hbus) hlimit
  rw [hname, hsplit] at hread
  cases hread
  exact hother hname.symm

/-- What becomes of observed ports where all buses stay ports. -/
theorem Observes.exists_materialize (hclear : Clear m bs.entries) :
    ∃ m', bs.materialize m = .ok m' ∧
      ∀ port ∈ ports, ∀ base index, Subscript.split? port.1 = some (base, index) →
        ∃ direction, HasBit m' base index direction ∧
          (port.1 = Subscript.join base index → Regrouped m m' port.1 base index direction) ∧
          (port.1 ≠ Subscript.join base index → LeftAlone m m' port.1) := by
  obtain ⟨m', hmake, hconnections, hports, hothers⟩ :=
    exists_foldlM_materializeBus bs.nodup_names hclear
  refine ⟨m', hmake, ?_⟩
  intro port hport base index hsplit
  have hname : port.1 ∉ bs.entries.map Prod.fst := h.notMem_names hbs hport
  obtain ⟨old, hold, -, hisPort⟩ := h.scalar port hport
  obtain ⟨bus, hbus, hindex⟩ := hbs.exists_bus (List.mem_filterMap.mpr ⟨port, hport, hsplit⟩)
  obtain ⟨w, hw, hdirection, hwidth⟩ := hports _ hbus
  have hbit : HasBit m' base index bus.direction := ⟨w, hw, hdirection, hindex.trans_le hwidth⟩
  refine ⟨bus.direction, hbit, ?_, ?_⟩
  · intro hjoin
    have hmem : port.1 ∈ bs.entries.flatMap fun bus => bitNames bus.1 bus.2.width := by
      rw [hjoin]
      exact List.mem_flatMap.mpr ⟨_, hbus, List.mem_map_of_mem (List.mem_range.mpr hindex)⟩
    have hwire : port.1 ∈ m.wires.names :=
      List.mem_map_of_mem (Ordered.get?_eq_some_iff.mp hold)
    refine ⟨⟨{ old with direction := none }, ?_, rfl⟩, ⟨_, hconnections, ?_⟩, hbit⟩
    · rw [hothers port.1 hname, hold, Option.map_some, release, if_pos hmem]
    · rw [hjoin] at hname hwire ⊢
      rw [← joint_eq_link]
      exact connectionsAt_joints bs.nodup_names hname hbus hindex hwire
  · intro hother
    have hnot := h.notMem_bitNames hbs hsplit hother
    refine ⟨?_, ⟨_, hconnections, connectionsAt_joints_eq_nil hname hnot⟩⟩
    rw [hothers port.1 hname, hold, Option.map_some, release, if_neg hnot]

/-- A name that is written in another way has a wire that stays a port. -/
theorem Observes.eq_join_of_regroupsAll (hregroups : RegroupsAll m ports bs)
    {port : String × Direction} (hport : port ∈ ports) {base : String} {index : Nat}
    (hsplit : Subscript.split? port.1 = some (base, index)) : port.1 = Subscript.join base index := by
  by_contra hother
  obtain ⟨m', hmake, hports⟩ := h.exists_materialize hbs (clear_of_regroupsAll hbs hregroups)
  obtain ⟨m₁, hmake₁, hregrouped⟩ := hregroups
  obtain rfl : m' = m₁ := Except.ok.inj (hmake.symm.trans hmake₁)
  obtain ⟨-, -, -, hleft⟩ := hports port hport base index hsplit
  obtain ⟨direction, hjoined⟩ := hregrouped port hport base index hsplit
  obtain ⟨w, hw, hinner⟩ := hjoined.inner
  obtain ⟨old, hold, -, hisPort⟩ := h.scalar port hport
  rw [(hleft hother).kept, hold] at hw
  cases hw
  rw [hisPort] at hinner
  cases hinner

end Observes

/-! ### Modules with inputs of one bit -/

def inputs (names : List String) : List (String × Direction) := names.map (·, .input)

def inputModule (names : List String) : Module :=
  (inputs names).foldl (fun m (name, direction) => m.addPort name 1 direction) {}

theorem isNarrow_inputModule (names : List String) (name : String) :
    IsNarrow (inputModule names).widths name :=
  Module.isNarrow_foldl_addPort (m := {}) (fun _ _ h => nomatch h) (inputs names) name

theorem observes_inputs {names : List String} (hnodup : names.Nodup)
    (hindices : ∀ name ∈ names, ∀ bit ∈ Subscript.split? name, bit.2 + 1 < Subscript.indexLimit)
    (hapart : ∀ name ∈ names, ∀ other ∈ names, ∀ bit ∈ Subscript.split? other, bit.1 ≠ name) :
    Observes (inputModule names) (inputs names) := by
  have hports : (inputs names).map Prod.fst = names := by
    rw [inputs, List.map_map]
    exact List.map_id names
  have hentries : (inputModule names).wires.entries = (inputs names).map Module.scalarPort :=
    Module.entries_foldl_addPort (hports.symm ▸ hnodup) fun _ _ => List.not_mem_nil
  have hname {port : String × Direction} (hport : port ∈ inputs names) : port.1 ∈ names :=
    hports ▸ List.mem_map_of_mem hport
  refine ⟨?_, fun port hport => hindices port.1 (hname hport),
    fun port hport other hother => hapart port.1 (hname hport) other.1 (hname hother)⟩
  intro port hport
  refine ⟨(Module.scalarPort port).2, ?_, rfl, rfl⟩
  rw [Ordered.get?_eq_some_iff, hentries]
  exact List.mem_map_of_mem hport

/-! ### Regrouped ports -/

/-- Observed ports are all regrouped just where their buses are clear and every name is the one that is
written for its base and index.  Where the buses are clear there are all bits of them, and a name that is
written in another way has its wire left alone. -/
theorem regroupsAll_iff (h : Observes m ports) :
    ∃ bs, ofPorts ports = .ok bs ∧
      (RegroupsAll m ports bs ↔ Clear m bs.entries ∧
        ∀ port ∈ ports, ∀ base index, Subscript.split? port.1 = some (base, index) →
          port.1 = Subscript.join base index) ∧
      (Clear m bs.entries → ∃ m', bs.materialize m = .ok m' ∧
        ∀ port ∈ ports, ∀ base index, Subscript.split? port.1 = some (base, index) →
          ∃ direction, HasBit m' base index direction ∧
            (port.1 = Subscript.join base index → Regrouped m m' port.1 base index direction) ∧
            (port.1 ≠ Subscript.join base index → LeftAlone m m' port.1)) := by
  obtain ⟨bs, hobserved, hbs⟩ := exists_ofPorts h.indices
  refine ⟨bs, hobserved, ⟨?_, ?_⟩, h.exists_materialize hbs⟩
  · intro hregroups
    refine ⟨clear_of_regroupsAll hbs hregroups, ?_⟩
    intro port hport base index hsplit
    exact h.eq_join_of_regroupsAll hbs hregroups hport hsplit
  · rintro ⟨hclear, hwritten⟩
    obtain ⟨m', hmake, hports⟩ := h.exists_materialize hbs hclear
    refine ⟨m', hmake, ?_⟩
    intro port hport base index hsplit
    obtain ⟨direction, -, hregrouped, -⟩ := hports port hport base index hsplit
    exact ⟨direction, hregrouped (hwritten port hport base index hsplit)⟩

/-- An index that is skipped makes the bus wide enough for the next. -/
theorem regroupsAll_gap :
    Observes (inputModule ["a[0]", "a[2]"]) (inputs ["a[0]", "a[2]"]) ∧
      ∃ bs, ofPorts (inputs ["a[0]", "a[2]"]) = .ok bs ∧
        RegroupsAll (inputModule ["a[0]", "a[2]"]) (inputs ["a[0]", "a[2]"]) bs := by
  have h : Observes (inputModule ["a[0]", "a[2]"]) (inputs ["a[0]", "a[2]"]) :=
    observes_inputs (by decide) (by decide) (by decide)
  obtain ⟨bs, hobserved, hiff, -⟩ := regroupsAll_iff h
  have hentries : bs.entries = [("a", ⟨3, .input⟩)] := by
    obtain rfl := Except.ok.inj hobserved
    decide +kernel
  refine ⟨h, bs, hobserved, hiff.mpr ⟨⟨?_, ?_⟩, ?_⟩⟩
  · intro bus _ index _
    exact isNarrow_inputModule _ _
  · rw [hentries]
    exact List.pairwise_singleton _ _
  · have hwritten : ∀ port ∈ inputs ["a[0]", "a[2]"], ∀ bit ∈ Subscript.split? port.1,
        port.1 = Subscript.join bit.1 bit.2 := by
      decide
    intro port hport base index hsplit
    exact hwritten port hport (base, index) hsplit

/-- Of a name with leading zeros the wire stays a port.  Where a bus has the name of a bit of another, it
is no port any longer. -/
theorem not_regroupsAll_samples :
    (Observes (inputModule ["a[007]"]) (inputs ["a[007]"]) ∧
      ∃ bs, ofPorts (inputs ["a[007]"]) = .ok bs ∧
        ¬ RegroupsAll (inputModule ["a[007]"]) (inputs ["a[007]"]) bs) ∧
    (Observes (inputModule ["a[1][0]", "a[2]"]) (inputs ["a[1][0]", "a[2]"]) ∧
      ∃ bs, ofPorts (inputs ["a[1][0]", "a[2]"]) = .ok bs ∧
        ¬ RegroupsAll (inputModule ["a[1][0]", "a[2]"]) (inputs ["a[1][0]", "a[2]"]) bs) := by
  constructor
  · have h : Observes (inputModule ["a[007]"]) (inputs ["a[007]"]) :=
      observes_inputs (by decide) (by decide) (by decide)
    obtain ⟨bs, hobserved, hbs⟩ := exists_ofPorts h.indices
    refine ⟨h, bs, hobserved, ?_⟩
    intro hregroups
    have hport : ("a[007]", Direction.input) ∈ inputs ["a[007]"] := List.mem_cons_self
    have hwritten : "a[007]" = Subscript.join "a" 7 :=
      h.eq_join_of_regroupsAll hbs hregroups hport (by decide)
    exact absurd hwritten (by decide)
  · have h : Observes (inputModule ["a[1][0]", "a[2]"]) (inputs ["a[1][0]", "a[2]"]) :=
      observes_inputs (by decide) (by decide) (by decide)
    obtain ⟨bs, hobserved, hbs⟩ := exists_ofPorts h.indices
    have hentries : bs.entries = [("a[1]", ⟨1, .input⟩), ("a", ⟨3, .input⟩)] := by
      obtain rfl := Except.ok.inj hobserved
      decide +kernel
    refine ⟨h, bs, hobserved, ?_⟩
    intro hregroups
    have horder := (clear_of_regroupsAll hbs hregroups).order
    rw [hentries] at horder
    exact List.rel_of_pairwise_cons horder List.mem_cons_self 1 (by decide) (by decide)

end Buses

end CircuitLowering
