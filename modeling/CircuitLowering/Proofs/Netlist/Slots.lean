import CircuitLowering.Proofs.Netlist.Naming
import CircuitLowering.Proofs.Text.Subscript
import Mathlib.Data.List.Nodup

/-!
# Where pins stand

The ports of a node have positions for its pins, index by index and port by port, and the pins take them in
their order until one of the two runs out.  So the pins of the slots are the first pins, and their positions
are the first positions (`Slot.map_pin_cut`, `Slot.map_position_cut`).  A position is found from its number
and its number from it: the sizes of the ports before are added up (`Slot.getElem?_positions_iff`).

The name of a slot tells its position wherever no label is the name of a bit, as the index is told from the
brackets and the port from the label (`Slot.bindingName_inj`).
-/

namespace CircuitLowering.Slot

open Text

/-- A place for a pin among the ports of a node. -/
structure Position where
  /-- The number of the port, in declared order. -/
  port : Nat
  /-- The index within the port. -/
  index : Nat
  portSize : Nat
deriving DecidableEq, Repr

def position (slot : Slot) : Position := ⟨slot.port, slot.index, slot.portSize⟩

/-- All positions of ports of the given sizes; `port` is the number of the first of them. -/
def positionsFrom (port : Nat) : List Nat → List Position
  | [] => []
  | size :: sizes =>
    ((List.range size).map fun index => ⟨port, index, size⟩) ++ positionsFrom (port + 1) sizes

def positions (sizes : List Nat) : List Position := positionsFrom 0 sizes

/-- Whether a position has the number `k`, counted over all ports. -/
structure Position.IsAt (p : Position) (sizes : List Nat) (k : Nat) : Prop where
  size : sizes[p.port]? = some p.portSize
  index_lt : p.index < p.portSize
  number : (sizes.take p.port).sum + p.index = k

/-! ### Positions by their numbers -/

theorem getElem?_positionsFrom_iff {port k : Nat} {sizes : List Nat} {p : Position} :
    (positionsFrom port sizes)[k]? = some p ↔
      ∃ i, p.port = port + i ∧ sizes[i]? = some p.portSize ∧ p.index < p.portSize ∧
        (sizes.take i).sum + p.index = k := by
  induction sizes generalizing port k with
  | nil => simp [positionsFrom]
  | cons size sizes ih =>
    rw [positionsFrom, List.getElem?_append, List.length_map, List.length_range]
    split
    · next hhere =>
      rw [List.getElem?_map, List.getElem?_range hhere, Option.map_some, Option.some.injEq]
      constructor
      · rintro rfl
        exact ⟨0, rfl, rfl, hhere, Nat.zero_add k⟩
      · rintro ⟨i, hport, hsize, hindex, hnumber⟩
        cases i with
        | zero =>
          obtain ⟨number, index, portSize⟩ := p
          cases hsize
          simp_all
        | succ i =>
          -- a later port begins after this one
          rw [List.take_succ_cons, List.sum_cons] at hnumber
          omega
    · next hlater =>
      rw [ih]
      constructor
      · rintro ⟨i, hport, hsize, hindex, hnumber⟩
        refine ⟨i + 1, by omega, hsize, hindex, ?_⟩
        rw [List.take_succ_cons, List.sum_cons]
        omega
      · rintro ⟨i, hport, hsize, hindex, hnumber⟩
        cases i with
        | zero =>
          cases hsize
          simp at hnumber
          omega
        | succ i =>
          rw [List.take_succ_cons, List.sum_cons] at hnumber
          exact ⟨i, by omega, hsize, hindex, by omega⟩

theorem getElem?_positions_iff {k : Nat} {sizes : List Nat} {p : Position} :
    (positions sizes)[k]? = some p ↔ p.IsAt sizes k := by
  rw [positions, getElem?_positionsFrom_iff]
  constructor
  · rintro ⟨i, hport, hsize, hindex, hnumber⟩
    rw [Nat.zero_add] at hport
    subst hport
    exact ⟨hsize, hindex, hnumber⟩
  · intro h
    exact ⟨p.port, (Nat.zero_add p.port).symm, h.size, h.index_lt, h.number⟩

theorem map_position_cutFrom (port : Nat) (pins : List PinId) (sizes : List Nat) :
    (cutFrom port pins sizes).map position = (positionsFrom port sizes).take pins.length := by
  induction sizes generalizing port pins with
  | nil => simp [cutFrom, positionsFrom]
  | cons size sizes ih =>
    have hindices : (pins.take size).zipIdx.map Prod.snd = (List.range size).take pins.length := by
      rw [List.zipIdx_map_snd, List.length_take, List.take_range, List.range_eq_range', Nat.min_comm]
    have hhere : ((pins.take size).zipIdx.map fun pin =>
          (⟨pin.1, port, pin.2, size⟩ : Slot)).map position =
        ((List.range size).map fun index => (⟨port, index, size⟩ : Position)).take pins.length := by
      rw [← List.map_take, ← hindices, List.map_map, List.map_map]
      rfl
    rw [cutFrom, List.map_append, positionsFrom, List.take_append, List.length_map, List.length_range,
      ← List.length_drop]
    exact congrArg₂ (· ++ ·) hhere (ih (port + 1) (pins.drop size))

/-- The slots have the first positions, as many as there are pins. -/
theorem map_position_cut (pins : List PinId) (sizes : List Nat) :
    (cut pins sizes).map position = (positions sizes).take pins.length :=
  map_position_cutFrom 0 pins sizes

theorem length_cut (pins : List PinId) (sizes : List Nat) :
    (cut pins sizes).length = min pins.length sizes.sum := by
  have hlength := congrArg List.length (map_pin_cut pins sizes)
  rwa [List.length_map, List.length_take, Nat.min_comm] at hlength

/-- The pin and the position of a slot have its number. -/
theorem getElem?_cut {pins : List PinId} {sizes : List Nat} {k : Nat} {slot : Slot}
    (h : (cut pins sizes)[k]? = some slot) :
    pins[k]? = some slot.pin ∧ slot.position.IsAt sizes k := by
  have hlength : k < min pins.length sizes.sum := by
    rw [← length_cut]
    exact (List.getElem?_eq_some_iff.mp h).1
  obtain ⟨hpins, hsizes⟩ := Nat.lt_min.mp hlength
  have hpin := congrArg (·[k]?) (map_pin_cut pins sizes)
  have hposition := congrArg (·[k]?) (map_position_cut pins sizes)
  simp only [List.getElem?_map, h, Option.map_some, List.getElem?_take, if_pos hsizes] at hpin
  simp only [List.getElem?_map, h, Option.map_some, List.getElem?_take, if_pos hpins] at hposition
  exact ⟨hpin.symm, getElem?_positions_iff.mp hposition.symm⟩

/-! ### Names -/

theorem Position.IsAt.port_lt {p : Position} {sizes : List Nat} {k : Nat} (h : p.IsAt sizes k) :
    p.port < sizes.length :=
  (List.getElem?_eq_some_iff.mp h.size).1

/-- Where no label is the name of a bit, slots of one name have one label and one index. -/
theorem bindingName_inj {slot slot' : Slot} {label label' : String} (hindex : slot.index < slot.portSize)
    (hindex' : slot'.index < slot'.portSize) (hlabel : ∀ base index, label ≠ Subscript.join base index)
    (hlabel' : ∀ base index, label' ≠ Subscript.join base index)
    (h : slot.bindingName label = slot'.bindingName label') : label = label' ∧ slot.index = slot'.index := by
  unfold bindingName at h
  split at h
  · next hone =>
    split at h
    · next hone' => exact ⟨h, by omega⟩
    · exact absurd h (hlabel _ _)
  · split at h
    · exact absurd h.symm (hlabel' _ _)
    · exact Subscript.join_injective h

/-- The name of a slot tells its number. -/
theorem eq_of_bindingName_eq {pins : List PinId} {sizes : List Nat} {label : Nat → String}
    (hdistinct : ∀ i < sizes.length, ∀ j < sizes.length, label i = label j → i = j)
    (hplain : ∀ i < sizes.length, ∀ base index, label i ≠ Subscript.join base index) {k k' : Nat}
    {slot slot' : Slot} (h : (cut pins sizes)[k]? = some slot) (h' : (cut pins sizes)[k']? = some slot')
    (hname : slot.bindingName (label slot.port) = slot'.bindingName (label slot'.port)) : k = k' := by
  obtain ⟨-, hat⟩ := getElem?_cut h
  obtain ⟨-, hat'⟩ := getElem?_cut h'
  obtain ⟨hlabel, hindex⟩ := bindingName_inj hat.index_lt hat'.index_lt (hplain _ hat.port_lt)
    (hplain _ hat'.port_lt) hname
  have hport : slot.port = slot'.port := hdistinct _ hat.port_lt _ hat'.port_lt hlabel
  have hnumber := hat.number
  have hnumber' := hat'.number
  dsimp only [position] at hnumber hnumber'
  rw [← hnumber, ← hnumber', hport, hindex]

/-- Slots have the pins and the positions of their numbers, as many as there are of both, and a number has
one position only.  Where the ports have distinct labels and none is the name of a bit, slots of different
numbers have different names. -/
theorem cut_positions (pins : List PinId) (sizes : List Nat) :
    (cut pins sizes).length = min pins.length sizes.sum ∧
    (∀ k slot, (cut pins sizes)[k]? = some slot →
      pins[k]? = some slot.pin ∧ ∀ p : Position, p.IsAt sizes k ↔ p = slot.position) ∧
    ∀ label : Nat → String, (∀ i < sizes.length, ∀ j < sizes.length, label i = label j → i = j) →
      (∀ i < sizes.length, ∀ base index, label i ≠ Subscript.join base index) →
      ((cut pins sizes).map fun slot => slot.bindingName (label slot.port)).Nodup := by
  refine ⟨length_cut pins sizes, ?_, ?_⟩
  · intro k slot hslot
    obtain ⟨hpin, hat⟩ := getElem?_cut hslot
    refine ⟨hpin, fun p => ⟨?_, ?_⟩⟩
    · intro hp
      have hsame := (getElem?_positions_iff.mpr hp).symm.trans (getElem?_positions_iff.mpr hat)
      exact Option.some.inj hsame
    · rintro rfl
      exact hat
  · intro label hdistinct hplain
    rw [List.nodup_iff_getElem?_ne_getElem?]
    intro k k' hlt hk' hname
    rw [List.length_map] at hk'
    have hslot := List.getElem?_eq_getElem (hlt.trans hk')
    have hslot' := List.getElem?_eq_getElem hk'
    rw [List.getElem?_map, List.getElem?_map, hslot, hslot', Option.map_some, Option.map_some,
      Option.some.injEq] at hname
    exact Nat.ne_of_lt hlt (eq_of_bindingName_eq hdistinct hplain hslot hslot' hname)

/-- Three pins for five places: a port without pins is passed over, and the last port gets one of three. -/
theorem cut_positions_short :
    cut [7, 4, 9] [2, 0, 3] = [⟨7, 0, 0, 2⟩, ⟨4, 0, 1, 2⟩, ⟨9, 2, 0, 3⟩] ∧
      (∀ p : Position, p.IsAt [2, 0, 3] 2 ↔ p = ⟨2, 0, 3⟩) ∧
      ((cut [7, 4, 9] [2, 0, 3]).map fun slot =>
        slot.bindingName (["a", "b", "a[0]^"].getD slot.port "")).Nodup := by
  have hcut : cut [7, 4, 9] [2, 0, 3] = [⟨7, 0, 0, 2⟩, ⟨4, 0, 1, 2⟩, ⟨9, 2, 0, 3⟩] := by decide
  obtain ⟨-, hslots, hnames⟩ := cut_positions [7, 4, 9] [2, 0, 3]
  have hthird : (cut [7, 4, 9] [2, 0, 3])[2]? = some ⟨9, 2, 0, 3⟩ := by
    rw [hcut]
    rfl
  have hends : ∀ i < 3, (["a", "b", "a[0]^"].getD i "").toList.getLast? ≠ some ']' := by decide
  refine ⟨hcut, (hslots 2 _ hthird).2, hnames (["a", "b", "a[0]^"].getD · "") (by decide) ?_⟩
  intro i hi base index hname
  apply hends i hi
  rw [hname, Subscript.toList_join, List.getLast?_concat]

end CircuitLowering.Slot
