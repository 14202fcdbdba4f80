/-!
# Insertion-ordered maps

A finite map from names to values that remembers the order in which its names first arrived.
Writing a name that is already there replaces its value and keeps its place; a new name goes to
the end. That the names are pairwise distinct is part of the type.

Main statements: `get?_insert_self` and `get?_insert_of_ne` (what a write changes) and
`names_insert` (where a write puts its name).
-/

universe u v

namespace CircuitLowering

/-- A map from names to values in the order in which the names were first written. -/
structure Ordered (α : Type u) where
  /-- The entries, oldest name first. -/
  entries : List (String × α) := []
  /-- No name occurs twice. -/
  nodup_names : (entries.map Prod.fst).Nodup := by simp

namespace Ordered

/-! ### Writing on the list of entries -/

/-- Writes `value` at the place of `name`, or at the end when there is no such place. -/
def write {α : Type u} (name : String) (value : α) : List (String × α) → List (String × α)
  | [] => [(name, value)]
  | entry :: rest =>
    if entry.1 = name then (entry.1, value) :: rest else entry :: write name value rest

theorem map_fst_write {α : Type u} (name : String) (value : α) (entries : List (String × α)) :
    (write name value entries).map Prod.fst =
      if name ∈ entries.map Prod.fst then entries.map Prod.fst
      else entries.map Prod.fst ++ [name] := by
  induction entries with
  | nil => simp [write]
  | cons entry rest ih =>
    by_cases h : entry.1 = name
    · simp [write, h]
    · simp only [write, h, if_false, List.map_cons, ih, List.mem_cons, Ne.symm h, false_or]
      split <;> simp

theorem nodup_write {α : Type u} {name : String} {value : α} {entries : List (String × α)}
    (h : (entries.map Prod.fst).Nodup) : ((write name value entries).map Prod.fst).Nodup := by
  rw [map_fst_write]
  split
  · exact h
  · next absent =>
    refine List.nodup_append.2 ⟨h, by simp, ?_⟩
    intro a ha b hb
    rw [List.mem_singleton] at hb
    rintro rfl
    exact absent (hb ▸ ha)

theorem lookup_write_self {α : Type u} (name : String) (value : α)
    (entries : List (String × α)) : (write name value entries).lookup name = some value := by
  induction entries with
  | nil => simp [write]
  | cons entry rest ih =>
    obtain ⟨key, old⟩ := entry
    by_cases h : key = name
    · simp [write, h]
    · have hn : (name == key) = false := by simp [Ne.symm h]
      simp [write, h, List.lookup_cons, hn, ih]

theorem lookup_write_of_ne {α : Type u} {name other : String} (ne : other ≠ name) (value : α)
    (entries : List (String × α)) :
    (write name value entries).lookup other = entries.lookup other := by
  have hn : (other == name) = false := beq_eq_false_iff_ne.2 ne
  induction entries with
  | nil => simp [write, List.lookup_cons, hn]
  | cons entry rest ih =>
    obtain ⟨key, old⟩ := entry
    by_cases h : key = name
    · simp [write, h, List.lookup_cons, hn]
    · simp [write, h, List.lookup_cons, ih]

/-! ### The map -/

variable {α : Type u} {β : Type v}

def empty : Ordered α := {}

instance : Inhabited (Ordered α) := ⟨empty⟩

/-- The names, oldest first. -/
def names (m : Ordered α) : List String := m.entries.map Prod.fst

/-- The values, in the order of their names. -/
def values (m : Ordered α) : List α := m.entries.map Prod.snd

def size (m : Ordered α) : Nat := m.entries.length

def get? (m : Ordered α) (name : String) : Option α := m.entries.lookup name

def contains (m : Ordered α) (name : String) : Bool := (m.get? name).isSome

/-- Writes `value` at `name`: in place if the name is known, at the end otherwise. -/
def insert (m : Ordered α) (name : String) (value : α) : Ordered α where
  entries := write name value m.entries
  nodup_names := nodup_write m.nodup_names

/-- Writes the pairs one after the other, so a repeated name keeps its first place and its last
value. -/
def ofList (pairs : List (String × α)) : Ordered α :=
  pairs.foldl (fun m pair => m.insert pair.1 pair.2) empty

/-- Applies `f` to each value; the names and their order stay. -/
def map (f : α → β) (m : Ordered α) : Ordered β where
  entries := m.entries.map fun entry => (entry.1, f entry.2)
  nodup_names := by simpa [Function.comp_def] using m.nodup_names

/-- Passes a state through the values, oldest first, and changes each on the way. -/
def scan {σ : Type} (step : σ → α → β × σ) (state : σ) : List (String × α) → List (String × β)
  | [] => []
  | entry :: rest =>
    (entry.1, (step state entry.2).1) :: scan step (step state entry.2).2 rest

theorem map_fst_scan {σ : Type} (step : σ → α → β × σ) (state : σ)
    (entries : List (String × α)) :
    (scan step state entries).map Prod.fst = entries.map Prod.fst := by
  induction entries generalizing state with
  | nil => rfl
  | cons entry rest ih => simp [scan, ih]

/-- Changes each value with the help of a state that passes from value to value; the names and
their order stay. -/
def mapScan {σ : Type} (step : σ → α → β × σ) (state : σ) (m : Ordered α) : Ordered β where
  entries := scan step state m.entries
  nodup_names := by rw [map_fst_scan]; exact m.nodup_names

def modify (m : Ordered α) (name : String) (f : α → α) : Ordered α where
  entries := m.entries.map fun entry => (entry.1, if entry.1 = name then f entry.2 else entry.2)
  nodup_names := by simpa [Function.comp_def] using m.nodup_names

@[simp] theorem get?_insert_self (m : Ordered α) (name : String) (value : α) :
    (m.insert name value).get? name = some value :=
  lookup_write_self name value m.entries

theorem get?_insert_of_ne (m : Ordered α) {name other : String} (ne : other ≠ name) (value : α) :
    (m.insert name value).get? other = m.get? other :=
  lookup_write_of_ne ne value m.entries

/-- A known name keeps its place and a new one goes to the end. -/
theorem names_insert (m : Ordered α) (name : String) (value : α) :
    (m.insert name value).names = if name ∈ m.names then m.names else m.names ++ [name] :=
  map_fst_write name value m.entries

end Ordered

end CircuitLowering
