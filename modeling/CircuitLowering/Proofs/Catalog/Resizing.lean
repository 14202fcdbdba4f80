import CircuitLowering.Emission.Basic
import CircuitLowering.Proofs.Catalog.MemorySizes
import Mathlib.Data.List.Forall2

/-!
# Resized models

To resize a model is to give sizes to names.  The first port of a name, inputs before outputs, takes the size
of its name; ports that repeat a name, names without a size and all else stay as they are (`Model.Resized`).
Setting a run up resizes the memory models as its settings say, and to do so once more changes nothing
(`Catalog.applyMemorySizes_resizes`).
-/

namespace CircuitLowering

namespace Model

variable {size? : String → Option Nat} {name : String} {seen : List String} {ports : List ModelPort}
  {p : ModelPort} {k : Nat}

/-- What a model is like after names were given sizes. -/
structure Resized (size? : String → Option Nat) (m m' : Model) : Prop where
  name : m'.name = m.name
  used : m'.used = m.used
  /-- Each side keeps its ports, with their names, directions and order. -/
  ports : m'.ports.map (fun p => (p.1, p.2.name, p.2.direction)) =
    m.ports.map fun p => (p.1, p.2.name, p.2.direction)
  first : ∀ name, m'.port? name =
    (m.port? name).map fun p => { p with size := (size? name).getD p.size }
  /-- A port whose name came before. -/
  repeated : ∀ k p, m.ports[k]? = some p → p.2.name ∈ (m.ports.take k).map (·.2.name) →
    m'.ports[k]? = some p

/-! ### Sizes one after the other -/

/-- Of two sizes the later one counts. -/
theorem sizeFirsts_sizeFirsts (earlier later : String → Option Nat) (seen : List String)
    (ports : List ModelPort) :
    sizeFirsts later seen (sizeFirsts earlier seen ports) =
      sizeFirsts (fun name => (later name).or (earlier name)) seen ports := by
  induction ports generalizing seen with
  | nil => rfl
  | cons p rest ih =>
    by_cases h : p.name ∈ seen
    · simp [sizeFirsts, h, ih]
    · cases hlater : later p.name <;> simp [sizeFirsts, h, ih, hlater]

theorem sized_sized (m : Model) (earlier later : String → Option Nat) :
    (m.sized earlier).sized later = m.sized fun name => (later name).or (earlier name) := by
  simp [sized, map_name_sizeFirsts, sizeFirsts_sizeFirsts]

theorem sized_none (m : Model) : m.sized (fun _ => none) = m := by
  simp [sized, sizeFirsts_none]

/-! ### Ports of a model with sizes -/

theorem find?_sizeFirsts (size? : String → Option Nat) (seen : List String) (ports : List ModelPort)
    (name : String) :
    (sizeFirsts size? seen ports).find? (·.name = name) =
      (ports.find? (·.name = name)).map fun p =>
        { p with size := if name ∈ seen then p.size else (size? name).getD p.size } := by
  induction ports generalizing seen with
  | nil => rfl
  | cons p rest ih =>
    by_cases h : p.name = name
    · simp [sizeFirsts, h]
    · simp [sizeFirsts, h, Ne.symm h, ih]

theorem getElem?_sizeFirsts_of_mem (hp : ports[k]? = some p)
    (hmem : p.name ∈ seen ∨ p.name ∈ (ports.take k).map (·.name)) :
    (sizeFirsts size? seen ports)[k]? = some p := by
  induction ports generalizing seen k with
  | nil => cases hp
  | cons first rest ih =>
    cases k with
    | zero =>
      rw [List.getElem?_cons_zero, Option.some.injEq] at hp
      subst hp
      have hseen : first.name ∈ seen := by simpa using hmem
      simp [sizeFirsts, hseen]
    | succ k =>
      rw [List.getElem?_cons_succ] at hp
      apply ih hp
      rw [List.take_succ_cons, List.map_cons, List.mem_cons] at hmem
      rcases hmem with hseen | hfirst | hrest
      · exact Or.inl (List.mem_cons_of_mem _ hseen)
      · exact Or.inl (hfirst ▸ List.mem_cons_self)
      · exact Or.inr hrest

theorem length_sizeFirsts (size? : String → Option Nat) (seen : List String) (ports : List ModelPort) :
    (sizeFirsts size? seen ports).length = ports.length := by
  simpa using congrArg List.length (map_name_sizeFirsts size? seen ports)

theorem port?_sized (m : Model) (size? : String → Option Nat) (name : String) :
    (m.sized size?).port? name =
      (m.port? name).map fun p => { p with size := (size? name).getD p.size } := by
  simp only [port?, List.find?_append, sized, find?_sizeFirsts]
  cases hinput : m.inputs.find? (·.name = name) with
  | some p => simp
  | none =>
    have hnew : name ∉ m.inputs.map (·.name) := by simpa using hinput
    cases m.outputs.find? (·.name = name) <;> simp [hnew]

theorem resized_sized (m : Model) (size? : String → Option Nat) : m.Resized size? (m.sized size?) where
  name := rfl
  used := rfl
  ports := by
    have hside (side : Direction) (seen : List String) (ports : List ModelPort) :
        (sizeFirsts size? seen ports).map (fun p => (side, p.name, p.direction)) =
          ports.map fun p => (side, p.name, p.direction) := by
      simpa [Function.comp_def] using
        congrArg (List.map (side, ·)) (map_interface_sizeFirsts size? seen ports)
    simp [Model.ports, sized, Function.comp_def, hside]
  first := port?_sized m size?
  repeated := by
    rintro k ⟨side, p⟩ hp hmem
    simp only [Model.ports, sized, List.getElem?_append, List.length_map, length_sizeFirsts,
      List.getElem?_map, List.take_append, List.map_append, List.mem_append, ← List.map_take,
      List.map_map, Function.comp_def] at hp hmem ⊢
    split at hp
    · next hk =>
      obtain ⟨q, hq, heq⟩ := Option.map_eq_some_iff.mp hp
      cases heq
      have htaken : k - m.inputs.length = 0 := by omega
      rw [if_pos hk, getElem?_sizeFirsts_of_mem hq, Option.map_some]
      simpa [htaken] using hmem
    · next hk =>
      obtain ⟨q, hq, heq⟩ := Option.map_eq_some_iff.mp hp
      cases heq
      rw [if_neg hk, getElem?_sizeFirsts_of_mem hq, Option.map_some]
      rwa [List.take_of_length_le (Nat.le_of_not_lt hk)] at hmem

end Model

/-! ### Setting a run up -/

theorem Catalog.applyMemorySizes_applyMemorySizes (c : Catalog) (config : Config) :
    (c.applyMemorySizes config).applyMemorySizes config = c.applyMemorySizes config := by
  have hmodels : ((c.applyMemorySizes config).applyMemorySizes config).models =
      (c.applyMemorySizes config).models := by
    simp only [models_applyMemorySizes, List.map_map]
    refine List.map_congr_left fun m _ => ?_
    change (m.sized (config.memorySize? m.name)).sized (config.memorySize? m.name) = _
    simp [Model.sized_sized]
  exact congrArg Catalog.mk hmodels

/-- Setting a run up resizes each model as the settings say, whatever its ports and those of other models
are, and changes nothing else.  To set a run up again from the models of a run with the same settings changes
nothing. -/
theorem Catalog.applyMemorySizes_resizes (c : Catalog) (config : Config) :
    List.Forall₂ (fun m m' => m.Resized (config.memorySize? m.name) m') c.models
      (c.applyMemorySizes config).models ∧
    (c.applyMemorySizes config).applyMemorySizes config = c.applyMemorySizes config ∧
    Context.new (Context.new c config).catalog config = Context.new c config := by
  refine ⟨?_, applyMemorySizes_applyMemorySizes c config, ?_⟩
  · rw [models_applyMemorySizes, List.forall₂_map_right_iff, List.forall₂_same]
    intro m _
    exact m.resized_sized _
  · simp only [Context.new, applyMemorySizes_applyMemorySizes]

end CircuitLowering
