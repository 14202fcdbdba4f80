import CircuitLowering.Proofs.Design.Cells
import CircuitLowering.Proofs.Queries
import Mathlib.Data.List.Induction

/-!
# Buses of cells

The ports of a cell that are named as bits of a bus are collected by their base and index, and then
put together to one signal for each base.  Here is what comes of a bus whose bits are bound one after
the other, from the first index to the last: it is collected as `CellBuses.indexed`
(`Cell.foldl_bindScalars_bits`), and its signal has these bits at its low end and fresh wires above
them, up to the width that the callee asks for (`CellBuses.materializeFrom_indexed`).
-/

namespace CircuitLowering

open Text

namespace CellBuses

/-! ### Collected bits -/

/-- The bits of a signal as they are collected when they come in order. -/
def indexed (s : Signal) : List (Nat × SignalBit) :=
  (s.zipIdx.map fun (bit, index) => (index, bit)).reverse

theorem indexed_concat (s : Signal) (bit : SignalBit) :
    indexed (s ++ [bit]) = (s.length, bit) :: indexed s := by
  simp [indexed, List.zipIdx_append]

theorem lookup_indexed (s : Signal) (index : Nat) : (indexed s).lookup index = s[index]? := by
  induction s using List.reverseRecOn with
  | nil => rfl
  | append_singleton s bit ih =>
    rw [indexed_concat, List.lookup_cons, ih, List.getElem?_append]
    by_cases hlast : index = s.length
    · simp [hlast]
    · have hne : (index == s.length) = false := beq_eq_false_iff_ne.mpr hlast
      simp only [hne]
      split
      · rfl
      · next hlow =>
        rw [List.getElem?_eq_none (Nat.not_lt.mp hlow), List.getElem?_eq_none]
        simp only [List.length_cons, List.length_nil]
        omega

theorem foldl_max_indexed (s : Signal) (start : Nat) :
    ((indexed s).map Prod.fst).foldl max start = max start (s.length - 1) := by
  induction s using List.reverseRecOn generalizing start with
  | nil => simp [indexed]
  | append_singleton s bit ih =>
    rw [indexed_concat, List.map_cons, List.foldl_cons, ih, List.length_append, List.length_singleton]
    omega

/-- A bus whose bits are all bound is as wide as there are bits. -/
theorem observedWidth_indexed {s : Signal} (h : s.length < Subscript.indexLimit) :
    observedWidth (indexed s) = .ok s.length := by
  cases s with
  | nil => rfl
  | cons bit rest =>
    have hne : (indexed (bit :: rest)).isEmpty = false := by simp [indexed]
    have hlength : 0 + (rest.length + 1) - 1 + 1 = rest.length + 1 := by omega
    rw [List.length_cons] at h
    rw [observedWidth, hne, foldl_max_indexed, indexSuccessor, List.length_cons]
    simp [h]

/-! ### Signals of buses -/

theorem fill_append (bits : List (Nat × SignalBit)) (m : Module) (index count count' : Nat) :
    fill bits m index (count + count') =
      ((fill bits m index count).1 ++
          (fill bits (fill bits m index count).2 (index + count) count').1,
        (fill bits (fill bits m index count).2 (index + count) count').2) := by
  induction count generalizing index m with
  | zero => simp [fill]
  | succ count ih =>
    rw [Nat.add_right_comm, fill, fill]
    cases bits.lookup index with
    | some bit =>
      have hrest := ih m (index + 1)
      rw [Nat.add_right_comm, Nat.add_assoc] at hrest
      simp only [hrest, List.cons_append]
    | none =>
      have hrest := ih (m.freshWire 1).2 (index + 1)
      rw [Nat.add_right_comm, Nat.add_assoc] at hrest
      simp only [hrest, List.cons_append]

/-- Indices with bits get their bits, and the module stays. -/
theorem fill_of_bits {bits : List (Nat × SignalBit)} {s : Signal} {index : Nat} (m : Module)
    (h : ∀ j, j < s.length → bits.lookup (index + j) = s[j]?) :
    fill bits m index s.length = (s, m) := by
  induction s generalizing index with
  | nil => rfl
  | cons bit rest ih =>
    have hfirst : bits.lookup index = some bit := h 0 (Nat.zero_lt_succ _)
    have hrest : fill bits m (index + 1) rest.length = (rest, m) := by
      apply ih
      intro j hj
      have hj := h (j + 1) (Nat.succ_lt_succ hj)
      rwa [← Nat.add_assoc, Nat.add_right_comm, List.getElem?_cons_succ] at hj
    rw [List.length_cons, fill, hfirst]
    simp only [hrest]

/-- Indices without bits get fresh wires. -/
theorem fill_of_none {bits : List (Nat × SignalBit)} {index : Nat}
    (h : ∀ j, index ≤ j → bits.lookup j = none) (m : Module) (count : Nat) :
    fill bits m index count =
      ((m.freshWires count).1.map fun name => .wire name 0, (m.freshWires count).2) := by
  induction count generalizing index m with
  | zero => rfl
  | succ count ih =>
    have hrest := ih (fun j hj => h j (Nat.le_of_succ_le hj)) (m.freshWire 1).2
    rw [fill, h index (Nat.le_refl _)]
    simp only [hrest]
    rfl

theorem fill_indexed (s : Signal) (m : Module) (count : Nat) :
    fill (indexed s) m 0 (s.length + count) =
      (s ++ (m.freshWires count).1.map (fun name => .wire name 0), (m.freshWires count).2) := by
  have hbits : fill (indexed s) m 0 s.length = (s, m) := by
    apply fill_of_bits
    intro j _
    rw [Nat.zero_add, lookup_indexed]
  have hnone : ∀ j, 0 + s.length ≤ j → (indexed s).lookup j = none := by
    intro j hj
    rw [lookup_indexed, List.getElem?_eq_none (by omega)]
  rw [fill_append, hbits, fill_of_none hnone]

section Materialize

variable {m : Module} {calleeWidth? : String → Option Nat}

theorem materializeFrom_append (m : Module) (entries entries' : List (String × List (Nat × SignalBit))) :
    materializeFrom m calleeWidth? (entries ++ entries') = (do
      let (signals, m) ← materializeFrom m calleeWidth? entries
      let (signals', m) ← materializeFrom m calleeWidth? entries'
      return (signals ++ signals', m)) := by
  induction entries generalizing m with
  | nil =>
    change _ = (fun rest : List (String × Signal) × Module => ([] ++ rest.1, rest.2)) <$>
      materializeFrom m calleeWidth? entries'
    simp
  | cons entry entries ih =>
    simp only [List.cons_append, materializeFrom, ih, bind_assoc, pure_bind]

theorem length_of_materializeFrom {entries : List (String × List (Nat × SignalBit))}
    {result : List (String × Signal) × Module}
    (h : materializeFrom m calleeWidth? entries = .ok result) : result.1.length = entries.length := by
  induction entries generalizing m result with
  | nil =>
    cases h
    rfl
  | cons entry entries ih =>
    rw [materializeFrom] at h
    obtain ⟨_, -, h⟩ := bind_eq_ok_iff.mp h
    obtain ⟨_, -, h⟩ := bind_eq_ok_iff.mp h
    obtain ⟨rest, hrest, h⟩ := bind_eq_ok_iff.mp h
    cases h
    exact congrArg (· + 1) (ih hrest)

/-- The width of a bus: it has all its bits, and it is as wide as the callee asks for. -/
def fullWidth (calleeWidth? : String → Option Nat) (bus : String × Signal) : Nat :=
  max bus.2.length ((calleeWidth? bus.1).getD 0)

def indexedEntries (buses : List (String × Signal)) : List (String × List (Nat × SignalBit)) :=
  buses.map fun bus => (bus.1, indexed bus.2)

/-- One bus: its bits, then fresh wires up to its width. -/
theorem materializeFrom_cons (m : Module) {bus : String × Signal}
    (h : bus.2.length < Subscript.indexLimit) (buses : List (String × Signal)) :
    materializeFrom m calleeWidth? (indexedEntries (bus :: buses)) = (do
      Capacity.ensure Capacity.signalBitBytes (fullWidth calleeWidth? bus)
      let (names, m) := m.freshWires (fullWidth calleeWidth? bus - bus.2.length)
      let (signals, m) ← materializeFrom m calleeWidth? (indexedEntries buses)
      return ((bus.1, bus.2 ++ names.map fun name => .wire name 0) :: signals, m)) := by
  have hwidth : bus.2.length + (fullWidth calleeWidth? bus - bus.2.length) =
      fullWidth calleeWidth? bus := Nat.add_sub_cancel' (Nat.le_max_left _ _)
  have hfill := fill_indexed bus.2 m (fullWidth calleeWidth? bus - bus.2.length)
  rw [hwidth] at hfill
  rw [indexedEntries, List.map_cons, materializeFrom, observedWidth_indexed h]
  simp only [bind, Except.bind]
  rw [← fullWidth, hfill]
  rfl

/-- Where all buses fit memory, their signals have the bits that are bound, then fresh wires. -/
theorem materializeFrom_indexed {buses : List (String × Signal)} (hnodup : (buses.map Prod.fst).Nodup)
    (hshort : ∀ bus ∈ buses, bus.2.length < Subscript.indexLimit)
    (hfits : ∀ bus ∈ buses, Capacity.fits Capacity.signalBitBytes (fullWidth calleeWidth? bus) = true) :
    ∃ (fillers : String → List String) (m' : Module),
      materializeFrom m calleeWidth? (indexedEntries buses) = .ok
        (buses.map fun bus => (bus.1, bus.2 ++ (fillers bus.1).map fun name => .wire name 0), m') ∧
      (∀ bus ∈ buses, bus.2.length + (fillers bus.1).length = fullWidth calleeWidth? bus) ∧
      m'.wires.entries =
        m.wires.entries ++ Module.fillerEntries (buses.flatMap fun bus => fillers bus.1) := by
  induction buses generalizing m with
  | nil => exact ⟨fun _ => [], m, rfl, by simp, by simp [Module.fillerEntries]⟩
  | cons bus buses ih =>
    rw [List.map_cons, List.nodup_cons] at hnodup
    let count := fullWidth calleeWidth? bus - bus.2.length
    obtain ⟨fillers, m', hrest, hwidths, hentries⟩ := ih (m := (m.freshWires count).2) hnodup.2
      (fun other hother => hshort other (List.mem_cons_of_mem _ hother))
      (fun other hother => hfits other (List.mem_cons_of_mem _ hother))
    -- the fillers of the first bus are added to those of the others, whose names differ
    let allFillers (base : String) := if base = bus.1 then (m.freshWires count).1 else fillers base
    have hfirst : allFillers bus.1 = (m.freshWires count).1 := if_pos rfl
    have hothers : ∀ other ∈ buses, allFillers other.1 = fillers other.1 := by
      intro other hother
      refine if_neg ?_
      intro hname
      exact hnodup.1 (hname ▸ List.mem_map_of_mem hother)
    refine ⟨allFillers, m', ?_, ?_, ?_⟩
    · have hensure : Capacity.ensure Capacity.signalBitBytes (fullWidth calleeWidth? bus) = .ok () :=
        Capacity.ensure_eq_ok_iff.mpr (hfits bus List.mem_cons_self)
      have hmap : (buses.map fun bus =>
            (bus.1, bus.2 ++ (allFillers bus.1).map fun name => SignalBit.wire name 0)) =
          buses.map fun bus => (bus.1, bus.2 ++ (fillers bus.1).map fun name => .wire name 0) := by
        apply List.map_congr_left
        intro other hother
        rw [hothers other hother]
      rw [materializeFrom_cons m (hshort bus List.mem_cons_self), hensure, List.map_cons, hmap, hfirst]
      simp only [bind, Except.bind]
      rw [hrest]
      rfl
    · intro other hother
      rcases List.mem_cons.mp hother with rfl | hother
      · rw [hfirst, Module.length_freshWires]
        exact Nat.add_sub_cancel' (Nat.le_max_left _ _)
      · rw [hothers other hother]
        exact hwidths other hother
    · have hflat : (buses.flatMap fun bus => allFillers bus.1) =
          buses.flatMap fun bus => fillers bus.1 :=
        List.flatMap_congr hothers
      rw [hentries, Module.entries_freshWires, List.flatMap_cons, hflat, hfirst, Module.fillerEntries,
        Module.fillerEntries, Module.fillerEntries, List.map_append, List.append_assoc]

/-- Buses are made only where all of them fit memory. -/
theorem fits_of_materializeFrom {buses : List (String × Signal)}
    {result : List (String × Signal) × Module}
    (hshort : ∀ bus ∈ buses, bus.2.length < Subscript.indexLimit)
    (h : materializeFrom m calleeWidth? (indexedEntries buses) = .ok result) :
    ∀ bus ∈ buses, Capacity.fits Capacity.signalBitBytes (fullWidth calleeWidth? bus) = true := by
  induction buses generalizing m result with
  | nil => simp
  | cons bus buses ih =>
    rw [materializeFrom_cons m (hshort bus List.mem_cons_self)] at h
    obtain ⟨u, hensure, h⟩ := bind_eq_ok_iff.mp h
    obtain ⟨rest, hrest, -⟩ := bind_eq_ok_iff.mp h
    intro other hother
    rcases List.mem_cons.mp hother with rfl | hother
    · exact Capacity.ensure_eq_ok_iff.mp hensure
    · exact ih (fun other hother => hshort other (List.mem_cons_of_mem _ hother)) hrest other hother

end Materialize

end CellBuses

/-! ### Binding the bits of a bus -/

namespace Cell

variable {direction : Direction} {c : Cell} {bs : CellBuses}

theorem bindScalars_of_split?_eq_none {port : String} (h : Subscript.split? port = none)
    (bit : SignalBit) :
    bindScalars direction (c, bs) (port, bit) = (c.bind port [bit] direction, bs) := by
  simp [bindScalars, CellBuses.take?, h]

theorem bindScalars_join {base : String} (hbase : Subscript.IsBase base) {index : Nat}
    (hindex : index < Subscript.indexLimit) (bit : SignalBit) :
    bindScalars direction (c, bs) (Subscript.join base index, bit) =
      (c, bs.insert base ((index, bit) :: (bs.get? base).getD [])) := by
  simp [bindScalars, CellBuses.take?, Subscript.split?_join hbase hindex]

/-- Bits of one bus that come one after the other are collected under its base. -/
theorem foldl_bindScalars_zipIdx {base : String} (hbase : Subscript.IsBase base) (bit : SignalBit)
    (rest : Signal) {start : Nat} (hshort : start + rest.length < Subscript.indexLimit) :
    (((bit :: rest).zipIdx start).map fun (bit, index) => (Subscript.join base index, bit)).foldl
        (bindScalars direction) (c, bs) =
      (c, bs.insert base ((((bit :: rest).zipIdx start).map fun (bit, index) => (index, bit)).reverse
        ++ (bs.get? base).getD [])) := by
  induction rest generalizing bit start bs with
  | nil =>
    rw [List.zipIdx_singleton, List.map_singleton, List.foldl_cons, List.foldl_nil,
      bindScalars_join hbase (by simpa using hshort)]
    rfl
  | cons second rest ih =>
    rw [List.length_cons] at hshort
    rw [List.zipIdx_cons, List.map_cons, List.foldl_cons, bindScalars_join hbase (by omega),
      ih second (by omega), Ordered.insert_insert, Ordered.get?_insert_self, List.map_cons,
      List.reverse_cons, List.append_assoc]
    rfl

theorem foldl_bindScalars_bits {base : String} (hbase : Subscript.IsBase base) {s : Signal}
    (hne : s ≠ []) (hshort : s.length < Subscript.indexLimit) (hnew : base ∉ bs.names) :
    (s.zipIdx.map fun (bit, index) => (Subscript.join base index, bit)).foldl
        (bindScalars direction) (c, bs) = (c, bs.insert base (CellBuses.indexed s)) := by
  cases s with
  | nil => exact absurd rfl hne
  | cons bit rest =>
    rw [foldl_bindScalars_zipIdx hbase bit rest (by simp only [List.length_cons] at hshort; omega),
      Ordered.get?_eq_none_iff.mpr hnew]
    simp [CellBuses.indexed]

end Cell

end CircuitLowering
