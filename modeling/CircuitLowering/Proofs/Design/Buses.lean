import CircuitLowering.Design.Bus
import CircuitLowering.Proofs.Design.Ports
import CircuitLowering.Proofs.Queries
import CircuitLowering.Proofs.Text.Subscript

/-!
# Buses of modules

A bus that is added becomes a port, and those of its bits of which there are wires of one bit are joined to
them and are no ports any longer (`Buses.exists_materializeBus`).  Where all bits are there, observing their
names from the first to the last makes the bus as wide as there are bits (`Buses.foldlM_observe_bits`), and
adding the buses puts one port for each of them after all wires and joins each bit to its wire once
(`Buses.exists_materialize`).
-/

namespace CircuitLowering

open Text

namespace Buses

variable {bs : Buses} {base name : String} {direction : Direction} {m : Module}

/-! ### Observed names -/

theorem observe_of_split?_eq_none (h : Subscript.split? name = none) :
    bs.observe name direction = .ok bs := by
  simp [observe, h]

theorem observe_join (hbase : Subscript.IsBase base) {index : Nat}
    (hindex : index + 1 < Subscript.indexLimit) :
    bs.observe (Subscript.join base index) direction = .ok (bs.insert base
      { width := max (((bs.get? base).map (·.width)).getD 0) (index + 1), direction := direction }) := by
  rw [observe, Subscript.split?_join hbase (Nat.lt_of_succ_lt hindex)]
  simp only [accumulate, indexSuccessor, if_pos hindex]
  rfl

/-- All bits of a bus, one after the other. -/
theorem foldlM_observe_bits (hbase : Subscript.IsBase base) {last : Nat}
    (hlast : last + 1 < Subscript.indexLimit) :
    (List.range (last + 1)).foldlM
      (fun bs index => observe bs (Subscript.join base index) direction) bs = .ok (bs.insert base
        { width := max (((bs.get? base).map (·.width)).getD 0) (last + 1), direction := direction }) := by
  induction last with
  | zero =>
    rw [List.range_one, List.foldlM_cons, observe_join hbase hlast]
    rfl
  | succ last ih =>
    have hwidth (known : Nat) :
        max (max known (last + 1)) (last + 1 + 1) = max known (last + 1 + 1) := by
      omega
    rw [List.range_succ, List.foldlM_append, ih (Nat.lt_of_succ_lt hlast)]
    refine bind_eq_ok_iff.mpr ⟨_, rfl, ?_⟩
    rw [List.foldlM_cons, observe_join hbase hlast, Ordered.get?_insert_self, Ordered.insert_insert,
      Option.map_some, Option.getD_some, hwidth]
    rfl

/-! ### Joined bits -/

def bitNames (base : String) (width : Nat) : List String :=
  (List.range width).map (Subscript.join base)

/-- The connection between a bit of a bus and the wire of its name, the driven side first. -/
def joint (direction : Direction) (base : String) (index : Nat) : Signal × Signal :=
  match direction with
  | .input => ([.wire (Subscript.join base index) 0], [.wire base index])
  | .output => ([.wire base index], [.wire (Subscript.join base index) 0])

/-- Different bits are joined by different connections: two buses cannot each be a bit of the other. -/
theorem joint_inj {direction' : Direction} {base' : String} {i j : Nat}
    (h : joint direction base i = joint direction' base' j) : base = base' ∧ i = j := by
  have hacyclic (hname : Subscript.join base i = base') : base ≠ Subscript.join base' j := by
    rintro hname'
    have hbase := Subscript.length_lt_join base i
    have hbase' := Subscript.length_lt_join base' j
    rw [hname] at hbase
    rw [← hname'] at hbase'
    exact Nat.lt_asymm hbase hbase'
  cases direction with
  | input =>
    cases direction' with
    | input => simpa using (Prod.mk.inj h).2
    | output =>
      have hname : Subscript.join base i = base' ∧ 0 = j := by simpa using (Prod.mk.inj h).1
      have hname' : base = Subscript.join base' j ∧ i = 0 := by simpa using (Prod.mk.inj h).2
      exact absurd hname'.1 (hacyclic hname.1)
  | output =>
    cases direction' with
    | input =>
      have hname' : base = Subscript.join base' j ∧ i = 0 := by simpa using (Prod.mk.inj h).1
      have hname : Subscript.join base i = base' ∧ 0 = j := by simpa using (Prod.mk.inj h).2
      exact absurd hname'.1 (hacyclic hname.1)
    | output => simpa using (Prod.mk.inj h).1

/-- No connection is made twice, as long as no bus comes twice and no bit of a bus. -/
theorem nodup_flatMap_joint {α : Type} {items : List α} {base : α → String} (direction : α → Direction)
    {indices : α → List Nat} (hnodup : (items.map base).Nodup)
    (hindices : ∀ item ∈ items, (indices item).Nodup) :
    (items.flatMap fun item => (indices item).map (joint (direction item) (base item))).Nodup := by
  rw [List.nodup_flatMap]
  constructor
  · intro item hitem
    refine List.Nodup.map ?_ (hindices item hitem)
    intro i j hij
    exact (joint_inj hij).2
  · refine (List.pairwise_map.mp hnodup).imp ?_
    intro item other hne joint hitem hother
    obtain ⟨i, -, rfl⟩ := List.mem_map.mp hitem
    obtain ⟨j, -, hjoint⟩ := List.mem_map.mp hother
    exact hne (joint_inj hjoint).1.symm

/-- Wires of which some are no ports any longer. -/
def withdrawn (names : List String) (entries : List (String × Wire)) : List (String × Wire) :=
  entries.map fun entry =>
    (entry.1, if entry.1 ∈ names then { entry.2 with direction := none } else entry.2)

theorem withdrawn_append (names names' : List String) (entries : List (String × Wire)) :
    withdrawn (names ++ names') entries = withdrawn names' (withdrawn names entries) := by
  unfold withdrawn
  rw [List.map_map]
  apply List.map_congr_left
  intro entry _
  by_cases h : entry.1 ∈ names
  · simp [h]
  · simp [h]

theorem map_fst_withdrawn (names : List String) (entries : List (String × Wire)) :
    (withdrawn names entries).map Prod.fst = entries.map Prod.fst := by
  rw [withdrawn, List.map_map]
  rfl

/-- A wire, which is no port any longer if its name is among these. -/
def release (names : List String) (name : String) (w : Wire) : Wire :=
  if name ∈ names then { w with direction := none } else w

theorem width_release (names : List String) (name : String) (w : Wire) :
    (release names name w).width = w.width := by
  unfold release
  split
  · rfl
  · rfl

theorem release_nil (name : String) : release [] name = id := by
  funext w
  exact if_neg List.not_mem_nil

theorem release_append (names names' : List String) (name : String) (w : Wire) :
    release (names ++ names') name w = release names' name (release names name w) := by
  by_cases h : name ∈ names
  · simp [release, h]
  · simp [release, h]

theorem lookup_withdrawn (names : List String) (entries : List (String × Wire)) (name : String) :
    (withdrawn names entries).lookup name = (entries.lookup name).map (release names name) := by
  induction entries with
  | nil => rfl
  | cons entry entries ih =>
    obtain ⟨key, w⟩ := entry
    change List.lookup name ((key, _) :: withdrawn names entries) = _
    rw [List.lookup_cons, List.lookup_cons]
    by_cases h : name = key
    · subst h
      rw [beq_self_eq_true]
      rfl
    · rw [beq_eq_false_iff_ne.mpr h]
      exact ih

def IsScalar (entries : List (String × Wire)) (name : String) : Prop :=
  ∃ w, (name, w) ∈ entries ∧ w.width = 1

theorem IsScalar.withdrawn {entries : List (String × Wire)} (h : IsScalar entries name)
    (names : List String) : IsScalar (withdrawn names entries) name := by
  rcases h with ⟨w, hw, hwidth⟩
  refine ⟨_, List.mem_map_of_mem hw, ?_⟩
  dsimp only
  split
  · exact hwidth
  · exact hwidth

theorem IsScalar.append {entries : List (String × Wire)} (h : IsScalar entries name)
    (others : List (String × Wire)) : IsScalar (entries ++ others) name := by
  rcases h with ⟨w, hw, hwidth⟩
  exact ⟨w, List.mem_append_left _ hw, hwidth⟩

/-- One bit, which is joined if there is a wire of its name, and then that wire is of one bit. -/
theorem exists_joinBit (direction : Direction) {index : Nat}
    (h : ∀ w, m.wires.get? (Subscript.join base index) = some w → w.width = 1) :
    ∃ m', joinBit base direction m index = .ok m' ∧
      m'.wires.entries = withdrawn [Subscript.join base index] m.wires.entries ∧
      m'.connections = m.connections ++
        ([index].filter (Subscript.join base · ∈ m.wires.names)).map (joint direction base) ∧
      m'.cells = m.cells := by
  cases hw : m.wires.get? (Subscript.join base index) with
  | none =>
    have hnew := Ordered.get?_eq_none_iff.mp hw
    refine ⟨m, by simp only [joinBit, hw], ?_, by simp [hnew], rfl⟩
    refine ((List.map_congr_left ?_).trans (List.map_id _)).symm
    intro entry hentry
    have hne : entry.1 ≠ Subscript.join base index := by
      rintro hsame
      exact hnew (hsame ▸ List.mem_map_of_mem hentry)
    rw [if_neg (mt List.mem_singleton.mp hne)]
    rfl
  | some w =>
    have hold : Subscript.join base index ∈ m.wires.names := by
      by_contra hnew
      rw [Ordered.get?_eq_none_iff.mpr hnew] at hw
      cases hw
    have hwires : (m.setDirection (Subscript.join base index) none).wires.entries =
        withdrawn [Subscript.join base index] m.wires.entries := by
      simp [Module.setDirection, Module.modifyWire, Ordered.modify, withdrawn]
    have hsingle : Signal.ofWireChecked (Subscript.join base index) w.width =
        .ok [.wire (Subscript.join base index) 0] := by
      rw [h w hw]
      rfl
    have hjoint : ([index].filter (Subscript.join base · ∈ m.wires.names)).map (joint direction base) =
        [joint direction base index] := by
      simp [hold]
    simp only [joinBit, hw, hsingle, hjoint]
    cases direction with
    | input => exact ⟨_, rfl, hwires, rfl, rfl⟩
    | output => exact ⟨_, rfl, hwires, rfl, rfl⟩

theorem exists_foldlM_joinBit (base : String) (direction : Direction) {indices : List Nat}
    (h : ∀ index ∈ indices, ∀ w, m.wires.get? (Subscript.join base index) = some w → w.width = 1) :
    ∃ m', indices.foldlM (joinBit base direction) m = .ok m' ∧
      m'.wires.entries = withdrawn (indices.map (Subscript.join base)) m.wires.entries ∧
      m'.connections = m.connections ++
        (indices.filter (Subscript.join base · ∈ m.wires.names)).map (joint direction base) ∧
      m'.cells = m.cells := by
  induction indices generalizing m with
  | nil => exact ⟨m, rfl, by simp [withdrawn], (List.append_nil _).symm, rfl⟩
  | cons index indices ih =>
    obtain ⟨m₁, hjoin, hwires, hconnections, hcells⟩ := exists_joinBit direction
      (h index List.mem_cons_self)
    have hnames : m₁.wires.names = m.wires.names := by
      rw [Ordered.names, hwires, map_fst_withdrawn]
      rfl
    have hrest : ∀ other ∈ indices, ∀ w,
        m₁.wires.get? (Subscript.join base other) = some w → w.width = 1 := by
      intro other hother w hw
      rw [Ordered.get?, hwires, lookup_withdrawn, Option.map_eq_some_iff] at hw
      obtain ⟨old, hold, rfl⟩ := hw
      rw [width_release]
      exact h other (List.mem_cons_of_mem _ hother) old hold
    obtain ⟨m', hfold, hwires', hconnections', hcells'⟩ := ih hrest
    refine ⟨m', ?_, ?_, ?_, hcells'.trans hcells⟩
    · rw [List.foldlM_cons, hjoin]
      exact hfold
    · rw [hwires', hwires, ← withdrawn_append]
      rfl
    · rw [hconnections', hconnections, hnames, List.append_assoc, ← List.map_append,
        ← List.filter_append]
      rfl

/-! ### Added buses -/

/-- The connections of a bus whose bits are joined to the wires of these names. -/
def joints (names : List String) (bus : String × Bus) : List (Signal × Signal) :=
  ((List.range bus.2.width).filter (Subscript.join bus.1 · ∈ names)).map (joint bus.2.direction bus.1)

theorem joints_of_mem {names : List String} {bus : String × Bus}
    (h : ∀ name ∈ bitNames bus.1 bus.2.width, name ∈ names) :
    joints names bus = (List.range bus.2.width).map (joint bus.2.direction bus.1) := by
  have hall : (List.range bus.2.width).filter (Subscript.join bus.1 · ∈ names) =
      List.range bus.2.width := by
    rw [List.filter_eq_self]
    intro index hindex
    exact decide_eq_true (h _ (List.mem_map_of_mem hindex))
  rw [joints, hall]

def port (bus : String × Bus) : String × Wire :=
  (bus.1, { width := bus.2.width, direction := some bus.2.direction })

/-- One bus.  It is no bit of its own, so the wires that its bits are joined to are there before its port
is. -/
theorem exists_materializeBus {bus : String × Bus}
    (h : ∀ index < bus.2.width, ∀ w,
      m.wires.get? (Subscript.join bus.1 index) = some w → w.width = 1) :
    ∃ m', materializeBus m bus.1 bus.2 = .ok m' ∧
      m'.wires.entries = withdrawn (bitNames bus.1 bus.2.width)
        (m.addPort bus.1 bus.2.width bus.2.direction).wires.entries ∧
      m'.connections = m.connections ++ joints m.wires.names bus ∧ m'.cells = m.cells := by
  have hget (index : Nat) := m.get?_addPort_of_ne (Subscript.join_ne_base bus.1 index) bus.2.width
    bus.2.direction
  have hnames (index : Nat) :
      Subscript.join bus.1 index ∈ (m.addPort bus.1 bus.2.width bus.2.direction).wires.names ↔
        Subscript.join bus.1 index ∈ m.wires.names := by
    rw [← not_iff_not, ← Ordered.get?_eq_none_iff, hget, Ordered.get?_eq_none_iff]
  have hscalars : ∀ index ∈ List.range bus.2.width, ∀ w,
      (m.addPort bus.1 bus.2.width bus.2.direction).wires.get? (Subscript.join bus.1 index) = some w →
        w.width = 1 := by
    intro index hindex w hw
    rw [hget] at hw
    exact h index (List.mem_range.mp hindex) w hw
  obtain ⟨m', hfold, hwires, hconnections, hcells⟩ :=
    exists_foldlM_joinBit bus.1 bus.2.direction hscalars
  refine ⟨m', hfold, hwires, ?_, hcells.trans (m.cells_addPort _ _ _)⟩
  rw [hconnections, Module.connections_addPort, joints]
  simp only [hnames]

/-- A bus whose bits are all there and whose name is new. -/
theorem exists_materializeBus_of_scalars {bus : String × Bus} (hnew : bus.1 ∉ m.wires.names)
    (hbits : ∀ name ∈ bitNames bus.1 bus.2.width, IsScalar m.wires.entries name) :
    ∃ m', materializeBus m bus.1 bus.2 = .ok m' ∧
      m'.wires.entries = withdrawn (bitNames bus.1 bus.2.width) m.wires.entries ++ [port bus] ∧
      m'.connections = m.connections ++ (List.range bus.2.width).map (joint bus.2.direction bus.1) ∧
      m'.cells = m.cells := by
  have hscalars : ∀ index < bus.2.width, ∀ w,
      m.wires.get? (Subscript.join bus.1 index) = some w → w.width = 1 := by
    intro index hindex w hw
    obtain ⟨scalar, hscalar, hwidth⟩ := hbits _ (List.mem_map_of_mem (List.mem_range.mpr hindex))
    rw [Ordered.get?_eq_some_iff.mpr hscalar, Option.some.injEq] at hw
    rw [← hw, hwidth]
  obtain ⟨m', hmake, hwires, hconnections, hcells⟩ := exists_materializeBus hscalars
  refine ⟨m', hmake, ?_, ?_, hcells⟩
  · rw [hwires, Module.entries_addPort_of_notMem hnew]
    simp [withdrawn, bitNames, port, Subscript.join_ne_base]
  · rw [hconnections, joints_of_mem]
    intro name hname
    obtain ⟨w, hw, -⟩ := hbits name hname
    exact List.mem_map_of_mem hw

/-- All buses, where every bit is there and no bus has the name of a bit. -/
theorem exists_materialize {buses : List (String × Bus)} (hnodup : (buses.map Prod.fst).Nodup)
    (hlabels : ∀ bus ∈ buses, Subscript.IsLabel bus.1)
    (hshort : ∀ bus ∈ buses, bus.2.width ≤ Subscript.indexLimit)
    (hnew : ∀ bus ∈ buses, bus.1 ∉ m.wires.names)
    (hbits : ∀ bus ∈ buses, ∀ name ∈ bitNames bus.1 bus.2.width, IsScalar m.wires.entries name) :
    ∃ m', buses.foldlM (fun m (base, bus) => materializeBus m base bus) m = .ok m' ∧
      m'.wires.entries =
        withdrawn (buses.flatMap fun bus => bitNames bus.1 bus.2.width) m.wires.entries ++
          buses.map port ∧
      m'.connections = m.connections ++
        buses.flatMap (fun bus => (List.range bus.2.width).map (joint bus.2.direction bus.1)) ∧
      m'.cells = m.cells := by
  induction buses generalizing m with
  | nil => exact ⟨m, rfl, by simp [withdrawn], by simp, rfl⟩
  | cons bus buses ih =>
    rw [List.map_cons, List.nodup_cons] at hnodup
    obtain ⟨m₁, hmake, hwires, hconnections, hcells⟩ := exists_materializeBus_of_scalars
      (hnew bus List.mem_cons_self) (hbits bus List.mem_cons_self)
    have hnames : m₁.wires.names = m.wires.names ++ [bus.1] := by
      rw [Ordered.names, hwires]
      simp [withdrawn, port, Ordered.names, Function.comp_def]
    obtain ⟨m', hfold, hwires', hconnections', hcells'⟩ := ih (m := m₁) hnodup.2
      (fun other hother => hlabels other (List.mem_cons_of_mem _ hother))
      (fun other hother => hshort other (List.mem_cons_of_mem _ hother))
      (by
        rw [hnames]
        exact Ordered.notMem_append_of_nodup hnodup.1 hnew)
      (by
        intro other hother name hname
        rw [hwires]
        exact ((hbits other (List.mem_cons_of_mem _ hother) name hname).withdrawn _).append _)
    refine ⟨m', ?_, ?_, ?_, hcells'.trans hcells⟩
    · rw [List.foldlM_cons]
      exact bind_eq_ok_iff.mpr ⟨m₁, hmake, hfold⟩
    · -- the port of the first bus stays a port, since it is not a bit of the others
      have hport : bus.1 ∉ buses.flatMap fun bus => bitNames bus.1 bus.2.width := by
        intro hmem
        obtain ⟨other, hother, hname⟩ := List.mem_flatMap.mp hmem
        obtain ⟨index, hindex, hname⟩ := List.mem_map.mp hname
        have hother := List.mem_cons_of_mem bus hother
        refine Subscript.join_ne_of_split?_eq_none (hlabels other hother).1 ?_
          (hlabels bus List.mem_cons_self).2 hname
        exact Nat.lt_of_lt_of_le (List.mem_range.mp hindex) (hshort other hother)
      rw [hwires', hwires, List.flatMap_cons, withdrawn_append]
      simp [withdrawn, port, hport]
    · rw [hconnections', hconnections, List.flatMap_cons, List.append_assoc]

end Buses

end CircuitLowering
