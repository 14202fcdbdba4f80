import CircuitLowering.Design.Module
import CircuitLowering.Proofs.Ordered
import Mathlib.Data.List.Range

/-!
# Ports of modules

A port is a wire with a direction.  When the ports of a module are numbered they are told apart by
their places, which follow the order in which their wires were added, and so they are listed in that
order (`Module.ports_numberPorts`).
-/

namespace CircuitLowering.Module

variable {m : Module} {name : String}

/-! ### Added ports -/

theorem entries_addPort_of_notMem (h : name ∉ m.wires.names) (width : Nat) (direction : Direction) :
    (m.addPort name width direction).wires.entries =
      m.wires.entries ++ [(name, { width := width, direction := some direction })] := by
  unfold addPort setDirection modifyWire addWire
  rw [Ordered.get?_eq_none_iff.mpr h]
  exact Ordered.entries_modify_insert h _ _

theorem get?_addPort_of_ne (m : Module) {other : String} (h : other ≠ name) (width : Nat)
    (direction : Direction) : (m.addPort name width direction).wires.get? other = m.wires.get? other := by
  unfold addPort setDirection modifyWire addWire
  rw [Ordered.get?_modify_of_ne _ h]
  cases m.wires.get? name <;> exact Ordered.get?_insert_of_ne m.wires h _

theorem exists_get?_addPort (m : Module) (name : String) (width : Nat) (direction : Direction) :
    ∃ w, (m.addPort name width direction).wires.get? name = some w ∧
      w.direction = some direction ∧ width ≤ w.width := by
  have hadded : ∃ w, (m.addWire name width).wires.get? name = some w ∧ width ≤ w.width := by
    unfold addWire
    cases m.wires.get? name with
    | none => exact ⟨_, Ordered.get?_insert_self _ _ _, Nat.le_refl width⟩
    | some w => exact ⟨_, Ordered.get?_insert_self _ _ _, Nat.le_max_right w.width width⟩
  obtain ⟨w, hw, hwidth⟩ := hadded
  refine ⟨{ w with direction := some direction }, ?_, rfl, hwidth⟩
  rw [addPort, setDirection, modifyWire, Ordered.get?_modify_self, hw]
  rfl

theorem cells_addPort (m : Module) (name : String) (width : Nat) (direction : Direction) :
    (m.addPort name width direction).cells = m.cells := by
  unfold addPort setDirection modifyWire addWire
  cases m.wires.get? name <;> rfl

theorem connections_addPort (m : Module) (name : String) (width : Nat) (direction : Direction) :
    (m.addPort name width direction).connections = m.connections := by
  unfold addPort setDirection modifyWire addWire
  cases m.wires.get? name <;> rfl

def scalarPort (port : String × Direction) : String × Wire :=
  (port.1, { width := 1, direction := some port.2 })

/-- Ports of one bit with distinct new names come last, in the order in which they are added. -/
theorem entries_foldl_addPort {ports : List (String × Direction)} (hnodup : (ports.map Prod.fst).Nodup)
    (hnew : ∀ port ∈ ports, port.1 ∉ m.wires.names) :
    (ports.foldl (fun m (name, direction) => m.addPort name 1 direction) m).wires.entries =
      m.wires.entries ++ ports.map scalarPort := by
  induction ports generalizing m with
  | nil => exact (List.append_nil _).symm
  | cons port ports ih =>
    rw [List.map_cons, List.nodup_cons] at hnodup
    have hentries := entries_addPort_of_notMem (hnew port List.mem_cons_self) 1 port.2
    have hnames : (m.addPort port.1 1 port.2).wires.names = m.wires.names ++ [port.1] := by
      rw [Ordered.names, hentries, List.map_append]
      rfl
    rw [List.foldl_cons, ih hnodup.2, hentries, List.append_assoc]
    · rfl
    · rw [hnames]
      exact Ordered.notMem_append_of_nodup hnodup.1 hnew

theorem cells_foldl_addPort (m : Module) (ports : List (String × Direction)) :
    (ports.foldl (fun m (name, direction) => m.addPort name 1 direction) m).cells = m.cells := by
  induction ports generalizing m with
  | nil => rfl
  | cons port ports ih => exact (ih _).trans (cells_addPort m port.1 1 port.2)

theorem connections_foldl_addPort (m : Module) (ports : List (String × Direction)) :
    (ports.foldl (fun m (name, direction) => m.addPort name 1 direction) m).connections =
      m.connections := by
  induction ports generalizing m with
  | nil => rfl
  | cons port ports ih => exact (ih _).trans (connections_addPort m port.1 1 port.2)

/-! ### Numbered ports -/

theorem mem_ports {w : Wire} :
    (name, w) ∈ m.ports ↔ m.wires.get? name = some w ∧ w.isPort = true := by
  rw [ports, List.mem_mergeSort, List.mem_filter, Ordered.get?_eq_some_iff]

def placed (first : Nat) (ports : List (String × Wire)) : List (String × Wire) :=
  (ports.zipIdx first).map fun (port, place) => (port.1, { port.2 with portId := place })

theorem pairwise_placed (first : Nat) (ports : List (String × Wire)) :
    (placed first ports).Pairwise fun a b => a.2.portId ≤ b.2.portId := by
  have hplaces : ((ports.zipIdx first).map Prod.snd).Pairwise (· ≤ ·) := by
    rw [List.zipIdx_map_snd]
    exact List.pairwise_le_range' 1
  rw [List.pairwise_map] at hplaces
  exact List.pairwise_map.mpr hplaces

/-- Numbered ports are listed in the order in which their wires were added. -/
theorem ports_numberPorts (m : Module) :
    m.numberPorts.ports = placed 1 (m.wires.entries.filter (·.2.isPort)) := by
  let place (next : Nat) (w : Wire) : Wire × Nat :=
    if w.isPort then ({ w with portId := next }, next + 1) else ({ w with portId := 0 }, next)
  have hscan (next : Nat) (entries : List (String × Wire)) :
      (Ordered.scan place next entries).filter (·.2.isPort) =
        placed next (entries.filter (·.2.isPort)) := by
    induction entries generalizing next with
    | nil => rfl
    | cons entry rest ih =>
      rw [Ordered.scan, List.filter_cons, List.filter_cons, ih]
      cases hport : entry.2.isPort with
      | true =>
        have hplace : place next entry.2 = ({ entry.2 with portId := next }, next + 1) := if_pos hport
        rw [hplace]
        simp only [Wire.isPort] at hport
        simp [placed, Wire.isPort, hport]
      | false =>
        have hplace : place next entry.2 = ({ entry.2 with portId := 0 }, next) := by
          simp [place, hport]
        rw [hplace]
        simp only [Wire.isPort] at hport
        simp [Wire.isPort, hport]
  change ((Ordered.scan place 1 m.wires.entries).filter (·.2.isPort)).mergeSort _ = _
  rw [hscan]
  apply List.mergeSort_of_pairwise
  simpa using pairwise_placed 1 (m.wires.entries.filter (·.2.isPort))

theorem get?_numberPorts_of_inner {w : Wire} (h : m.wires.get? name = some w)
    (hinner : w.isPort = false) :
    m.numberPorts.wires.get? name = some { w with portId := 0 } := by
  let place (next : Nat) (w : Wire) : Wire × Nat :=
    if w.isPort then ({ w with portId := next }, next + 1) else ({ w with portId := 0 }, next)
  have hscan (next : Nat) (entries : List (String × Wire)) (hmem : (name, w) ∈ entries) :
      (name, { w with portId := 0 }) ∈ Ordered.scan place next entries := by
    induction entries generalizing next with
    | nil => cases hmem
    | cons entry rest ih =>
      rcases List.mem_cons.mp hmem with rfl | hmem
      · have hplace : place next w = ({ w with portId := 0 }, next) := by simp [place, hinner]
        rw [Ordered.scan, hplace]
        exact List.mem_cons_self
      · exact List.mem_cons_of_mem _ (ih _ hmem)
  rw [Ordered.get?_eq_some_iff] at h ⊢
  exact hscan 1 m.wires.entries h

end CircuitLowering.Module
