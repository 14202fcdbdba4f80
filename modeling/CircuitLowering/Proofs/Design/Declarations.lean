import CircuitLowering.Design.Blackbox
import CircuitLowering.Proofs.Design.Buses

/-!
# Declarations of models

A model is declared by a module that has its ports alone.  On the way there each bit of a port is a port
of its own, and the wider ports are put together again from the names of their bits.  What is declared
in the end are the ports of the model with their sizes, in the direction of the side that lists them: first
those of one bit and then the wider ones, each in declared order (`Model.blackbox_declares`).  The wires of
single bits stay in the module, each joined to its place in its port.

The names of ports have to be distinct and must not be read as bits of buses, and the names of the bits of
each port have to fit memory (`blackbox_overflow_hugeModel`).
-/

namespace CircuitLowering

open Text

/-! ### Names of bits -/

namespace ModelPort

variable {p q : ModelPort}

theorem bitNames_of_ne_one (h : p.size ≠ 1) : p.bitNames = Buses.bitNames p.name p.size := by
  rw [bitNames, if_neg h]
  rfl

theorem mem_bitNames {name : String} (h : name ∈ p.bitNames) :
    name = p.name ∨ ∃ index < p.size, Subscript.join p.name index = name := by
  by_cases hsize : p.size = 1
  · rw [bitNames, if_pos hsize, List.mem_singleton] at h
    exact Or.inl h
  · rw [bitNames_of_ne_one hsize] at h
    obtain ⟨index, hindex, hname⟩ := List.mem_map.mp h
    exact Or.inr ⟨index, List.mem_range.mp hindex, hname⟩

theorem nodup_bitNames (p : ModelPort) : p.bitNames.Nodup := by
  by_cases hsize : p.size = 1
  · rw [bitNames, if_pos hsize]
    exact List.nodup_singleton _
  · rw [bitNames_of_ne_one hsize]
    refine List.Nodup.map ?_ List.nodup_range
    intro i j hname
    exact (Subscript.join_injective hname).2

/-- Ports of different names have no bit in common. -/
theorem disjoint_bitNames (hp : Subscript.IsLabel p.name) (hq : Subscript.IsLabel q.name)
    (hpshort : p.size < Subscript.indexLimit) (hqshort : q.size < Subscript.indexLimit)
    (hne : p.name ≠ q.name) : p.bitNames.Disjoint q.bitNames := by
  intro name hpname hqname
  rcases mem_bitNames hpname with rfl | ⟨i, hi, rfl⟩
  · rcases mem_bitNames hqname with hname | ⟨j, hj, hname⟩
    · exact hne hname
    · exact Subscript.join_ne_of_split?_eq_none hq.1 (hj.trans hqshort) hp.2 hname
  · rcases mem_bitNames hqname with hname | ⟨j, hj, hname⟩
    · exact Subscript.join_ne_of_split?_eq_none hp.1 (hi.trans hpshort) hq.2 hname
    · exact hne (Subscript.join_injective hname.symm).1

end ModelPort

namespace Model

def bitsOf (port : Direction × ModelPort) : List (String × Direction) :=
  port.2.bitNames.map (·, port.1)

def busOf (port : Direction × ModelPort) : String × Bus :=
  (port.2.name, { width := port.2.size, direction := port.1 })

def singlePorts (m : Model) : List (Direction × ModelPort) := m.ports.filter fun port => port.2.size = 1

def widePorts (m : Model) : List (Direction × ModelPort) := m.ports.filter fun port => 1 < port.2.size

/-- Whether the ports of a list can be told apart by the names of their bits. -/
structure Separable (ports : List (Direction × ModelPort)) : Prop where
  nodup : (ports.map (·.2.name)).Nodup
  labels : ∀ port ∈ ports, Subscript.IsLabel port.2.name
  short : ∀ port ∈ ports, port.2.size < Subscript.indexLimit

theorem Separable.of_cons {port : Direction × ModelPort} {ports : List (Direction × ModelPort)}
    (h : Separable (port :: ports)) : Separable ports where
  nodup := (List.nodup_cons.mp h.nodup).2
  labels other hother := h.labels other (List.mem_cons_of_mem _ hother)
  short other hother := h.short other (List.mem_cons_of_mem _ hother)

section Ports

variable {ports : List (Direction × ModelPort)}

theorem names_flatMap_bitsOf (ports : List (Direction × ModelPort)) :
    (ports.flatMap bitsOf).map Prod.fst = ports.flatMap fun port => port.2.bitNames := by
  simp [List.map_flatMap, bitsOf, Function.comp_def]

theorem Separable.nodup_bits (h : Separable ports) : ((ports.flatMap bitsOf).map Prod.fst).Nodup := by
  rw [names_flatMap_bitsOf, List.nodup_flatMap]
  constructor
  · intro port hport
    exact port.2.nodup_bitNames
  · have hdistinct := List.pairwise_map.mp h.nodup
    refine hdistinct.imp_of_mem ?_
    intro p q hp hq hne
    exact ModelPort.disjoint_bitNames (h.labels p hp) (h.labels q hq) (h.short p hp) (h.short q hq) hne

/-! ### Observing ports -/

theorem foldlM_observe_port {port : Direction × ModelPort} {bs : Buses}
    (hlabel : Subscript.IsLabel port.2.name) (hshort : port.2.size < Subscript.indexLimit)
    (hnew : port.2.name ∉ bs.names) :
    (bitsOf port).foldlM (fun bs (name, direction) => Buses.observe bs name direction) bs =
      .ok (if 1 < port.2.size then bs.insert port.2.name (busOf port).2 else bs) := by
  rcases port with ⟨direction, name, _ | _ | last⟩
  · rfl
  · exact bind_eq_ok_iff.mpr ⟨bs, Buses.observe_of_split?_eq_none hlabel.2, rfl⟩
  · have hbits : (List.range (last + 1 + 1)).foldlM
        (fun bs index => Buses.observe bs (Subscript.join name index) direction) bs = _ :=
      Buses.foldlM_observe_bits hlabel.1 hshort
    rw [Ordered.get?_eq_none_iff.mpr hnew] at hbits
    rw [bitsOf, ModelPort.bitNames_of_ne_one (by simp), Buses.bitNames, List.map_map, List.foldlM_map]
    refine hbits.trans ?_
    simp [busOf]

theorem foldlM_observe_ports (bs : Buses) (h : Separable ports)
    (hnew : ∀ port ∈ ports, port.2.name ∉ bs.names) :
    ∃ bs', (ports.flatMap bitsOf).foldlM
        (fun bs (name, direction) => Buses.observe bs name direction) bs = .ok bs' ∧
      bs'.entries = bs.entries ++ (ports.filter fun port => 1 < port.2.size).map busOf := by
  induction ports generalizing bs with
  | nil => exact ⟨bs, rfl, (List.append_nil _).symm⟩
  | cons port ports ih =>
    have hport := foldlM_observe_port (h.labels port List.mem_cons_self)
      (h.short port List.mem_cons_self) (hnew port List.mem_cons_self)
    have hfresh := hnew port List.mem_cons_self
    obtain ⟨hfirst, -⟩ := List.nodup_cons.mp h.nodup
    rw [List.flatMap_cons, List.foldlM_append, hport, List.filter_cons]
    by_cases hwide : 1 < port.2.size
    · have hnext : ∀ other ∈ ports, other.2.name ∉ (bs.insert port.2.name (busOf port).2).names := by
        rw [Ordered.names_insert_of_notMem hfresh]
        exact Ordered.notMem_append_of_nodup hfirst hnew
      obtain ⟨bs', hfold, hentries⟩ := ih _ h.of_cons hnext
      rw [if_pos hwide, if_pos (decide_eq_true hwide)]
      refine ⟨bs', hfold, ?_⟩
      rw [hentries, Ordered.entries_insert_of_notMem hfresh, List.append_assoc]
      rfl
    · obtain ⟨bs', hfold, hentries⟩ := ih _ h.of_cons fun other hother =>
        hnew other (List.mem_cons_of_mem _ hother)
      rw [if_neg hwide, if_neg (by simpa using hwide)]
      exact ⟨bs', hfold, hentries⟩

/-! ### Wires that stay ports -/

/-- When the bits of the wider ports are withdrawn, the ports of one bit are left. -/
theorem filter_isPort_withdrawn {names : List String}
    (hsingle : ∀ port ∈ ports, port.2.size = 1 → port.2.name ∉ names)
    (hwide : ∀ port ∈ ports, port.2.size ≠ 1 → ∀ name ∈ port.2.bitNames, name ∈ names) :
    (Buses.withdrawn names ((ports.flatMap bitsOf).map Module.scalarPort)).filter (·.2.isPort) =
      ((ports.filter fun port => port.2.size = 1).map busOf).map Buses.port := by
  induction ports with
  | nil => rfl
  | cons port ports ih =>
    have hrest := ih (fun other hother => hsingle other (List.mem_cons_of_mem _ hother))
      (fun other hother => hwide other (List.mem_cons_of_mem _ hother))
    rw [Buses.withdrawn] at hrest ⊢
    rw [List.flatMap_cons, List.map_append, List.map_append, List.filter_append, hrest, List.filter_cons]
    by_cases hsize : port.2.size = 1
    · have hname := hsingle port List.mem_cons_self hsize
      rw [if_pos (decide_eq_true hsize)]
      simp [bitsOf, ModelPort.bitNames, hsize, Module.scalarPort, hname, Wire.isPort, busOf, Buses.port]
    · have hbits := hwide port List.mem_cons_self hsize
      rw [if_neg (by simpa using hsize)]
      have hnone : ((((bitsOf port).map Module.scalarPort).map fun entry =>
          (entry.1, if entry.1 ∈ names then { entry.2 with direction := none } else entry.2)).filter
            (·.2.isPort)) = [] := by
        rw [List.filter_eq_nil_iff]
        intro entry hentry
        simp only [bitsOf, List.map_map, List.mem_map, Function.comp_apply] at hentry
        obtain ⟨name, hname, rfl⟩ := hentry
        simp [Module.scalarPort, hbits name hname, Wire.isPort]
      rw [hnone]
      rfl

end Ports

/-! ### Declared ports -/

variable {m : Model}

theorem short_of_portsFit (h : m.portsFit = true) :
    ∀ port ∈ m.ports, port.2.size < Subscript.indexLimit := by
  intro port hport
  have hmem : port.2 ∈ m.inputs ++ m.outputs := by
    rcases List.mem_append.mp hport with hport | hport
    · obtain ⟨p, hp, rfl⟩ := List.mem_map.mp hport
      exact List.mem_append_left _ hp
    · obtain ⟨p, hp, rfl⟩ := List.mem_map.mp hport
      exact List.mem_append_right _ hp
  have hfits := Capacity.fits_iff.mp (List.all_eq_true.mp h port.2 hmem)
  have hlimits : Capacity.maxBytes < Capacity.textBytes * Subscript.indexLimit := by decide
  exact Nat.lt_of_mul_lt_mul_left (Nat.lt_of_le_of_lt hfits hlimits)

/-- No port of more than one bit has the name of a bit. -/
theorem Separable.name_notMem_bits (h : Separable m.ports) {port : Direction × ModelPort}
    (hport : port ∈ m.widePorts) : port.2.name ∉ m.bitPorts.map Prod.fst := by
  obtain ⟨hport, hwide⟩ := List.mem_filter.mp hport
  intro hmem
  change port.2.name ∈ (m.ports.flatMap bitsOf).map Prod.fst at hmem
  rw [names_flatMap_bitsOf] at hmem
  obtain ⟨other, hother, hbit⟩ := List.mem_flatMap.mp hmem
  by_cases hsize : other.2.size = 1
  · rw [ModelPort.bitNames, if_pos hsize, List.mem_singleton] at hbit
    have hsame := List.inj_on_of_nodup_map h.nodup hport hother hbit
    rw [hsame, hsize] at hwide
    cases hwide
  · rw [ModelPort.bitNames_of_ne_one hsize] at hbit
    obtain ⟨index, hindex, hname⟩ := List.mem_map.mp hbit
    exact Subscript.join_ne_of_split?_eq_none (h.labels other hother).1
      ((List.mem_range.mp hindex).trans (h.short other hother)) (h.labels port hport).2 hname

def jointsOf (port : Direction × ModelPort) : List (Signal × Signal) :=
  (List.range port.2.size).map (Buses.joint port.1 port.2.name)

theorem mem_bitPorts_of_wide {port : Direction × ModelPort} (hport : port ∈ m.widePorts) {name : String}
    (hname : name ∈ Buses.bitNames port.2.name port.2.size) : (name, port.1) ∈ m.bitPorts := by
  obtain ⟨hport, hwide⟩ := List.mem_filter.mp hport
  rw [decide_eq_true_eq] at hwide
  refine List.mem_flatMap.mpr ⟨port, hport, List.mem_map_of_mem ?_⟩
  rwa [ModelPort.bitNames_of_ne_one (Nat.ne_of_gt hwide)]

def wideBits (m : Model) : List String :=
  m.widePorts.flatMap fun port => Buses.bitNames port.2.name port.2.size

theorem mem_wideBits {port : Direction × ModelPort} (hport : port ∈ m.widePorts) {index : Nat}
    (hindex : index < port.2.size) : Subscript.join port.2.name index ∈ m.wideBits :=
  List.mem_flatMap.mpr ⟨port, hport, List.mem_map_of_mem (List.mem_range.mpr hindex)⟩

theorem Separable.single_notMem_wideBits (h : Separable m.ports) {port : Direction × ModelPort}
    (hport : port ∈ m.ports) : port.2.name ∉ m.wideBits := by
  intro hmem
  obtain ⟨other, hother, hname⟩ := List.mem_flatMap.mp hmem
  obtain ⟨hother, -⟩ := List.mem_filter.mp hother
  obtain ⟨index, hindex, hname⟩ := List.mem_map.mp hname
  exact Subscript.join_ne_of_split?_eq_none (h.labels other hother).1
    ((List.mem_range.mp hindex).trans (h.short other hother)) (h.labels port hport).2 hname

theorem wide_mem_wideBits {port : Direction × ModelPort} (hport : port ∈ m.ports)
    (hsize : port.2.size ≠ 1) {name : String} (hname : name ∈ port.2.bitNames) :
    name ∈ m.wideBits := by
  rw [ModelPort.bitNames_of_ne_one hsize] at hname
  obtain ⟨index, hindex, rfl⟩ := List.mem_map.mp hname
  rw [List.mem_range] at hindex
  refine mem_wideBits (List.mem_filter.mpr ⟨hport, ?_⟩) hindex
  rw [decide_eq_true_eq]
  omega

/-- The module of a model before its ports are numbered. -/
theorem exists_blackbox (h : Separable m.ports) (hfits : m.portsFit = true) :
    ∃ module : Module, m.blackbox = .ok module.numberPorts.setBlackbox ∧
      module.wires.entries =
        Buses.withdrawn m.wideBits (m.bitPorts.map Module.scalarPort) ++
          (m.widePorts.map busOf).map Buses.port ∧
      module.connections = m.widePorts.flatMap jointsOf ∧ module.cells = .empty := by
  obtain ⟨bs, hobserved, hbuses⟩ := foldlM_observe_ports Ordered.empty h
    fun _ _ => List.not_mem_nil
  have hscalars : m.scalarModule.wires.entries = m.bitPorts.map Module.scalarPort :=
    Module.entries_foldl_addPort h.nodup_bits fun _ _ => List.not_mem_nil
  have hnames : m.scalarModule.wires.names = m.bitPorts.map Prod.fst := by
    rw [Ordered.names, hscalars, List.map_map]
    rfl
  have hwide : ∀ port ∈ m.widePorts, port ∈ m.ports := fun port hport => (List.mem_filter.mp hport).1
  have hnodup : ((m.widePorts.map busOf).map Prod.fst).Nodup := by
    rw [List.map_map]
    exact h.nodup.sublist (List.filter_sublist.map _)
  obtain ⟨module, hmade, hwires, hconnections, hcells⟩ :=
    Buses.exists_materialize (m := m.scalarModule) hnodup
      (List.forall_mem_map.mpr fun port hport => h.labels port (hwide port hport))
      (List.forall_mem_map.mpr fun port hport => Nat.le_of_lt (h.short port (hwide port hport)))
      (List.forall_mem_map.mpr fun port hport => by
        rw [hnames]
        exact h.name_notMem_bits hport)
      (List.forall_mem_map.mpr fun port hport name hname => by
        refine ⟨{ width := 1, direction := some port.1 }, ?_, rfl⟩
        rw [hscalars]
        exact List.mem_map.mpr ⟨_, mem_bitPorts_of_wide hport hname, rfl⟩)
  refine ⟨module, ?_, ?_, ?_, ?_⟩
  · have hb : m.buses = .ok bs := (if_pos hfits).trans hobserved
    have hmaterialize : bs.materialize m.scalarModule = .ok module := by
      rw [Buses.materialize, hbuses]
      exact hmade
    exact bind_eq_ok_iff.mpr ⟨bs, hb, bind_eq_ok_iff.mpr ⟨module, hmaterialize, rfl⟩⟩
  · rw [hwires, hscalars, List.flatMap_map]
    rfl
  · rw [hconnections, scalarModule, Module.connections_foldl_addPort, List.flatMap_map]
    rfl
  · rw [hcells, scalarModule, Module.cells_foldl_addPort]

theorem portsFit_of_blackbox {module : Module} (h : m.blackbox = .ok module) : m.portsFit = true := by
  obtain ⟨bs, hbuses, -⟩ := bind_eq_ok_iff.mp h
  by_contra hfits
  rw [buses, if_neg hfits] at hbuses
  cases hbuses

/-- Of the wires of the module those are ports that are not bits of wider ports. -/
theorem Separable.filter_isPort_entries (h : Separable m.ports) :
    (Buses.withdrawn m.wideBits (m.bitPorts.map Module.scalarPort) ++
        (m.widePorts.map busOf).map Buses.port).filter (·.2.isPort) =
      ((m.singlePorts ++ m.widePorts).map busOf).map Buses.port := by
  have hsingles : (Buses.withdrawn m.wideBits (m.bitPorts.map Module.scalarPort)).filter
      (·.2.isPort) = (m.singlePorts.map busOf).map Buses.port :=
    filter_isPort_withdrawn (fun port hport _ => h.single_notMem_wideBits hport)
      fun port hport hsize name hname => wide_mem_wideBits hport hsize hname
  have hwides : ((m.widePorts.map busOf).map Buses.port).filter (·.2.isPort) =
      (m.widePorts.map busOf).map Buses.port := by
    refine List.filter_eq_self.mpr ?_
    intro entry hentry
    obtain ⟨bus, -, rfl⟩ := List.mem_map.mp hentry
    rfl
  rw [List.filter_append, hsingles, hwides, List.map_append, List.map_append]

/-- No connection is made twice. -/
theorem Separable.nodup_joints (h : Separable m.ports) : (m.widePorts.flatMap jointsOf).Nodup := by
  have hnames : (m.widePorts.map (·.2.name)).Nodup := h.nodup.sublist (List.filter_sublist.map _)
  exact Buses.nodup_flatMap_joint _ hnames fun port _ => List.nodup_range

/-- A model is declared wherever its ports fit memory.  Its module has the ports of the model and no
others, first those of one bit and then the wider ones, each with its size and its side.  Every bit of
a wider port is joined once to the wire of its name, which is an inner wire; the driven side of an input
is that wire and that of an output is the port.  There is nothing else in the module. -/
theorem blackbox_declares {d : Design} (hnodup : (m.ports.map (·.2.name)).Nodup)
    (hlabels : ∀ port ∈ m.ports, Subscript.IsLabel port.2.name) (hnew : d.module? m.name = none) :
    ((∃ module, m.blackbox = .ok module) ↔ m.portsFit = true) ∧
    ∀ module, m.blackbox = .ok module →
      (∃ d', d.addModule m.name module = .ok d' ∧
        d'.modules.entries = d.modules.entries ++ [(m.name, module)]) ∧
      module.ports = ((m.singlePorts ++ m.widePorts).zipIdx 1).map (fun (port, place) =>
        (port.2.name, { width := port.2.size, direction := some port.1, portId := place })) ∧
      (∀ name w, module.wires.get? name = some w → w.isPort = true → (name, w) ∈ module.ports) ∧
      module.connections = m.widePorts.flatMap jointsOf ∧ module.connections.Nodup ∧
      (∀ port ∈ m.widePorts, ∀ index < port.2.size,
        module.wires.get? (Subscript.join port.2.name index) = some { width := 1 }) ∧
      module.cells = .empty := by
  have hseparable (hfits : m.portsFit = true) : Separable m.ports :=
    ⟨hnodup, hlabels, short_of_portsFit hfits⟩
  constructor
  · constructor
    · intro h
      obtain ⟨module, h⟩ := h
      exact portsFit_of_blackbox h
    · intro hfits
      obtain ⟨module, hmade, -⟩ := exists_blackbox (hseparable hfits) hfits
      exact ⟨_, hmade⟩
  · intro module h
    have hfits := portsFit_of_blackbox h
    have hports := hseparable hfits
    obtain ⟨before, hmade, hwires, hconnections, hcells⟩ := exists_blackbox hports hfits
    rw [h] at hmade
    cases hmade
    refine ⟨?_, ?_, ?_, hconnections, ?_, ?_, hcells⟩
    · refine ⟨_, if_neg ?_, Ordered.entries_insert_of_notMem (Ordered.get?_eq_none_iff.mp hnew) _⟩
      rw [Ordered.contains_iff]
      exact Ordered.get?_eq_none_iff.mp hnew
    · change before.numberPorts.ports = _
      rw [Module.ports_numberPorts, hwires, hports.filter_isPort_entries, Module.placed,
        List.zipIdx_map, List.zipIdx_map, List.map_map, List.map_map]
      rfl
    · intro name w hw hport
      exact Module.mem_ports.mpr ⟨hw, hport⟩
    · change before.connections.Nodup
      rw [hconnections]
      exact hports.nodup_joints
    · intro port hport index hindex
      have hbit := mem_bitPorts_of_wide hport (List.mem_map_of_mem (List.mem_range.mpr hindex))
      have hinner : before.wires.get? (Subscript.join port.2.name index) = some { width := 1 } := by
        rw [Ordered.get?_eq_some_iff, hwires]
        refine List.mem_append_left _ (List.mem_map.mpr ⟨_, List.mem_map_of_mem hbit, ?_⟩)
        simp [Module.scalarPort, mem_wideBits hport hindex]
      exact Module.get?_numberPorts_of_inner hinner rfl

end Model

/-- A model with ports of one bit, wider ports and one without bits. -/
def sampleModel : Model where
  name := "ram"
  inputs := [.input "d" 2, .input "e" 1, .input "nc" 0]
  outputs := [.output "q" 3, .output "z" 1]

theorem blackbox_declares_sampleModel :
    ∃ module, sampleModel.blackbox = .ok module ∧
      module.ports.map (fun port => (port.1, port.2.width, port.2.portId)) =
        [("e", 1, 1), ("z", 1, 2), ("d", 2, 3), ("q", 3, 4)] ∧
      module.connections = [
        ([.wire "d[0]" 0], [.wire "d" 0]), ([.wire "d[1]" 0], [.wire "d" 1]),
        ([.wire "q" 0], [.wire "q[0]" 0]), ([.wire "q" 1], [.wire "q[1]" 0]),
        ([.wire "q" 2], [.wire "q[2]" 0])] := by
  have hlabels : ∀ port ∈ sampleModel.ports, Subscript.IsLabel port.2.name := by
    unfold Subscript.IsLabel Subscript.IsBase
    decide +kernel
  obtain ⟨hmade, hdeclared⟩ := Model.blackbox_declares (d := {}) (by decide +kernel) hlabels rfl
  obtain ⟨module, hmodule⟩ := hmade.mpr (by decide +kernel)
  obtain ⟨-, hports, -, hconnections, -, -, -⟩ := hdeclared module hmodule
  refine ⟨module, hmodule, ?_, ?_⟩
  · rw [hports]
    decide +kernel
  · rw [hconnections]
    decide +kernel

/-- A model with a port of `2 ^ 60` bits. -/
def hugeModel : Model where
  name := "m"
  inputs := [.input "a" 1152921504606846976]
  outputs := []

/-- Its names are good, and there is no memory for those of its bits. -/
theorem blackbox_overflow_hugeModel :
    (hugeModel.ports.map (·.2.name)).Nodup ∧
      (∀ port ∈ hugeModel.ports, Subscript.IsLabel port.2.name) ∧
      ({} : Design).module? hugeModel.name = none ∧
      hugeModel.blackbox = .error .overflow ∧ ¬ ∃ module, hugeModel.blackbox = .ok module := by
  have hlabels : ∀ port ∈ hugeModel.ports, Subscript.IsLabel port.2.name := by
    unfold Subscript.IsLabel Subscript.IsBase
    decide +kernel
  have hbuses : hugeModel.buses = .error .overflow := if_neg (by decide +kernel)
  have hstopped : hugeModel.blackbox = .error .overflow := by
    rw [Model.blackbox, hbuses]
    rfl
  refine ⟨by decide, hlabels, rfl, hstopped, ?_⟩
  rintro ⟨module, hmodule⟩
  cases hstopped.symm.trans hmodule

end CircuitLowering
