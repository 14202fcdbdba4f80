import CircuitLowering.Design.Bus
import CircuitLowering.Proofs.Ordered
import CircuitLowering.Proofs.Text.Subscript
import Mathlib.Data.List.Perm.Subperm

/-!
# Wires of modules

Wires are only ever added, and a new wire comes last.  The name of a fresh wire is free: the search
tries one number more than there are wires, and different numbers have different names
(`Module.freshName_notMem`).  So a fresh wire is one more entry, and because the names of a module's
wires are pairwise distinct by their type, so are those of fresh wires among themselves and from all
others (`Module.entries_freshWires`).
-/

namespace CircuitLowering.Module

variable {m : Module} {name : String}

/-! ### Added wires -/

theorem names_addWire (m : Module) (name : String) (width : Nat) :
    (m.addWire name width).wires.names =
      if name ∈ m.wires.names then m.wires.names else m.wires.names ++ [name] := by
  unfold addWire
  cases m.wires.get? name <;> exact m.wires.names_insert name _

theorem mem_names_addWire (m : Module) (name : String) (width : Nat) :
    name ∈ (m.addWire name width).wires.names := by
  rw [names_addWire]
  split
  · assumption
  · exact List.mem_append_right _ List.mem_cons_self

theorem names_subset_addWire (m : Module) (name : String) (width : Nat) :
    m.wires.names ⊆ (m.addWire name width).wires.names := by
  rw [names_addWire]
  split
  · exact List.Subset.refl _
  · exact List.subset_append_left _ _

/-! ### Fresh wires -/

theorem freshName_injective {i j : Nat} (h : freshName i = freshName j) : i = j := by
  apply Text.toString_nat_injective
  have htext := congrArg String.toList h
  rw [freshName, freshName, String.toList_append, String.toList_append] at htext
  exact String.toList_inj.mp (List.append_cancel_left htext)

/-- Where the search does not end at a free name, it has met as many taken names as it had tries, and
one more. -/
theorem freshName_mem_of_seekFresh_mem {n tries : Nat}
    (h : freshName (m.seekFresh n tries) ∈ m.wires.names) :
    ∀ i ≤ tries, freshName (n + i) ∈ m.wires.names := by
  induction tries generalizing n with
  | zero =>
    intro i hi
    rw [Nat.le_zero.mp hi]
    exact h
  | succ tries ih =>
    rw [seekFresh] at h
    split at h
    · next hfirst =>
      intro i hi
      cases i with
      | zero => exact (m.wires.contains_iff _).mp hfirst
      | succ i =>
        have hnext := ih h i (Nat.le_of_succ_le_succ hi)
        rwa [Nat.add_right_comm] at hnext
    · next hfirst => exact absurd ((m.wires.contains_iff _).mpr h) hfirst

/-- There are at least as many wires as numbers in a row whose names are taken. -/
theorem le_size_of_freshName_mem {n count : Nat}
    (h : ∀ i < count, freshName (n + i) ∈ m.wires.names) : count ≤ m.wires.size := by
  let taken := (List.range count).map fun i => freshName (n + i)
  have hnodup : taken.Nodup := by
    refine List.Nodup.map ?_ List.nodup_range
    intro i j hij
    exact Nat.add_left_cancel (freshName_injective hij)
  have hsubset : taken ⊆ m.wires.names := by
    intro name hname
    obtain ⟨i, hi, rfl⟩ := List.mem_map.mp hname
    exact h i (List.mem_range.mp hi)
  have hlength := (hnodup.subperm hsubset).length_le
  simpa only [taken, List.length_map, List.length_range, Ordered.names, Ordered.size] using hlength

theorem freshName_notMem (m : Module) : freshName m.freshNumber ∉ m.wires.names := by
  intro h
  have hall := freshName_mem_of_seekFresh_mem h
  have hsize : m.wires.size + 1 ≤ m.wires.size :=
    le_size_of_freshName_mem fun i hi => hall i (Nat.le_of_lt_succ hi)
  omega

theorem entries_freshWire (m : Module) (width : Nat) :
    (m.freshWire width).2.wires.entries =
      m.wires.entries ++ [((m.freshWire width).1, { width := width })] :=
  Ordered.entries_insert_of_notMem m.freshName_notMem _

def freshWires (m : Module) : Nat → List String × Module
  | 0 => ([], m)
  | count + 1 =>
    let (name, m) := m.freshWire 1
    let (names, m) := m.freshWires count
    (name :: names, m)

theorem length_freshWires (m : Module) (count : Nat) : (m.freshWires count).1.length = count := by
  induction count generalizing m with
  | zero => rfl
  | succ count ih => exact congrArg (· + 1) (ih (m.freshWire 1).2)

def fillerEntries (names : List String) : List (String × Wire) :=
  names.map fun name => (name, { width := 1 })

theorem entries_freshWires (m : Module) (count : Nat) :
    (m.freshWires count).2.wires.entries =
      m.wires.entries ++ fillerEntries (m.freshWires count).1 := by
  induction count generalizing m with
  | zero => exact (List.append_nil _).symm
  | succ count ih =>
    have hrest := ih (m.freshWire 1).2
    rw [entries_freshWire, List.append_assoc] at hrest
    exact hrest

/-- Wires that come last in a module are new in it, and they are what they were added as. -/
theorem fillers_of_entries {m m' : Module} {names : List String}
    (h : m'.wires.entries = m.wires.entries ++ fillerEntries names) :
    names.Nodup ∧ ∀ name ∈ names, name ∉ m.wires.names ∧
      m'.wires.get? name = some { width := 1 } := by
  have hnames : m'.wires.entries.map Prod.fst = m.wires.names ++ names := by
    rw [h, List.map_append]
    simp [fillerEntries, Ordered.names, Function.comp_def]
  have hnodup := m'.wires.nodup_names
  rw [hnames, List.nodup_append] at hnodup
  refine ⟨hnodup.2.1, ?_⟩
  intro name hname
  refine ⟨fun hold => hnodup.2.2 name hold name hname rfl, ?_⟩
  rw [Ordered.get?_eq_some_iff, h]
  exact List.mem_append_right _ (List.mem_map_of_mem hname)

end CircuitLowering.Module
