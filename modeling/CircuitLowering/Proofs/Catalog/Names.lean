import CircuitLowering.Proofs.Catalog.MemorySizes
import Mathlib.Data.List.Nodup

/-!
# Names in a catalog

No operation on a catalog takes a name out or moves it, and registering a new name puts it at the end.  So
the place of a model, which its name alone determines (`Catalog.index?_eq`), stays the same for good.
-/

namespace CircuitLowering.Catalog

variable {c : Catalog} {name other : String} {i : Nat} {m : Model} {f : Model → Model}

def names (c : Catalog) : List String := c.models.map (·.name)

/-! ### Names -/

theorem map_name_update (c : Catalog) (name : String) {f : Model → Model}
    (hf : ∀ m, (f m).name = m.name) :
    (c.update name f).models.map (·.name) = c.models.map (·.name) := by
  rw [update, List.map_map]
  apply List.map_congr_left
  intro m _
  rw [Function.comp_apply]
  split
  · exact hf m
  · rfl

theorem isSome_find?_iff : (c.find? name).isSome = true ↔ name ∈ c.names := by
  simp [find?, names]

theorem names_register (c : Catalog) (name : String) (inputs outputs : List ModelPort) :
    (c.register name inputs outputs).names =
      if name ∈ c.names then c.names else c.names ++ [name] := by
  by_cases h : name ∈ c.names
  · rw [register, if_pos (isSome_find?_iff.mpr h), if_pos h]
    exact map_name_update c name fun _ => rfl
  · rw [register, if_neg (mt isSome_find?_iff.mp h), if_neg h, names, List.map_append]
    rfl

theorem nodup_update {c : Catalog} (hc : (c.models.map (·.name)).Nodup) (name : String)
    {f : Model → Model} (hf : ∀ m, (f m).name = m.name) :
    ((c.update name f).models.map (·.name)).Nodup := by
  rw [map_name_update c name hf]
  exact hc

theorem nodup_register {c : Catalog} (hc : (c.models.map (·.name)).Nodup) (name : String)
    (inputs outputs : List ModelPort) :
    ((c.register name inputs outputs).models.map (·.name)).Nodup := by
  change (c.register name inputs outputs).names.Nodup
  rw [names_register]
  split
  · exact hc
  · next h => exact List.nodup_append.mpr ⟨hc, by simp, by simpa using fun a ha => ne_of_mem_of_not_mem ha h⟩

theorem name_resize (m : Model) (port : String) (size : Nat) : (m.resize port size).name = m.name := by
  unfold Model.resize
  split <;> rfl

theorem names_setPortSize (c : Catalog) (model port : String) (size : Nat) :
    (c.setPortSize model port size).names = c.names :=
  map_name_update c model fun m => name_resize m port size

theorem names_applyMemorySizes (c : Catalog) (config : Config) :
    (c.applyMemorySizes config).names = c.names := by
  rw [names, models_applyMemorySizes, List.map_map]
  rfl

/-! ### Places -/

theorem index?_eq (c : Catalog) (name : String) : c.index? name = c.names.findIdx? (· = name) := by
  rw [index?, names, List.findIdx?_map]
  rfl

/-- Names that are new do not move the others. -/
theorem index?_of_names {c' : Catalog} {new : List String} (hnames : c'.names = c.names ++ new)
    (h : c.index? name = some i) : c'.index? name = some i := by
  rw [index?_eq] at h ⊢
  rw [hnames, List.findIdx?_append, h, Option.some_or]

theorem isSome_index?_iff : (c.index? name).isSome = true ↔ name ∈ c.names := by
  simp [index?_eq]

theorem find?_eq (c : Catalog) (name : String) :
    c.find? name = (c.index? name).bind fun i => c.models[i]? :=
  List.find?_eq_bind_findIdx?_getElem?

/-- Where names are distinct, the place of a name is where it stands. -/
theorem index?_eq_some_iff (hc : c.names.Nodup) :
    c.index? name = some i ↔ (c.models[i]?).map (·.name) = some name := by
  have hplace : (c.models[i]?).map (·.name) = c.names[i]? := by simp [names]
  rw [hplace, index?_eq, List.findIdx?_eq_some_iff_getElem, List.getElem?_eq_some_iff]
  simp only [decide_eq_true_eq]
  constructor
  · rintro ⟨hi, hname, -⟩
    exact ⟨hi, hname⟩
  · rintro ⟨hi, hname⟩
    refine ⟨hi, hname, fun j hj hsame => ?_⟩
    exact Nat.ne_of_lt hj (hc.getElem_inj_iff.mp (hsame.trans hname.symm))

/-- Where names are distinct, an update changes the model at one place. -/
theorem update_eq_modify (hc : c.names.Nodup) (h : c.index? name = some i) (f : Model → Model) :
    (c.update name f).models = c.models.modify i f := by
  apply List.ext_getElem?
  intro j
  rw [update, List.getElem?_map, List.getElem?_modify]
  cases hj : c.models[j]? with
  | none => rfl
  | some m =>
    have hname : m.name = name ↔ i = j := by
      have hindex : c.index? m.name = some j ↔ _ := index?_eq_some_iff hc
      rw [hj, Option.map_some] at hindex
      constructor
      · rintro rfl
        rw [hindex.mpr rfl, Option.some.injEq] at h
        exact h.symm
      · rintro rfl
        have hplace := (index?_eq_some_iff hc).mp h
        rwa [hj, Option.map_some, Option.some.injEq] at hplace
    simp [hname]

/-- An update of a name that is not there changes nothing. -/
theorem update_of_notMem (h : name ∉ c.names) (f : Model → Model) : c.update name f = c := by
  have hmodels : (c.update name f).models = c.models := by
    refine (List.map_congr_left fun m hm => ?_).trans (List.map_id _)
    have hne : m.name ≠ name := by
      rintro rfl
      exact h (List.mem_map_of_mem hm)
    rw [if_neg hne, id]
  exact congrArg Catalog.mk hmodels

/-! ### Models -/

theorem name_of_find? (h : c.find? name = some m) : m.name = name := by
  simpa using List.find?_some h

theorem find?_update (c : Catalog) (name : String) (hf : ∀ m, (f m).name = m.name) (other : String) :
    (c.update name f).find? other =
      if other = name then (c.find? other).map f else c.find? other := by
  have hsame (m : Model) : (if m.name = name then f m else m).name = m.name := by
    split
    · exact hf m
    · rfl
  rw [find?, update, List.find?_map, find?]
  simp only [Function.comp_def, hsame]
  cases hfind : c.models.find? fun m => decide (m.name = other) with
  | none => simp
  | some m =>
    have hname := name_of_find? hfind
    by_cases h : other = name <;> simp [hname, h]

theorem find?_register (c : Catalog) (name : String) (inputs outputs : List ModelPort) (other : String) :
    (c.register name inputs outputs).find? other =
      if other = name then some { name, inputs, outputs, used := (c.find? name).any (·.used) }
      else c.find? other := by
  by_cases hmem : (c.find? name).isSome = true
  · have hports (m : Model) : { m with inputs, outputs }.name = m.name := rfl
    rw [register, if_pos hmem, find?_update c name hports]
    obtain ⟨m, hm⟩ := Option.isSome_iff_exists.mp hmem
    by_cases h : other = name
    · subst h
      simp [hm, name_of_find? hm]
    · simp [h]
  · rw [register, if_neg hmem, find?, List.find?_append]
    rw [Bool.not_eq_true, Option.isSome_eq_false_iff, Option.isNone_iff_eq_none] at hmem
    by_cases h : other = name
    · subst h
      change (c.find? other).or _ = _
      simp [hmem]
    · change (c.find? other).or _ = _
      simp [h, Ne.symm h]

theorem find?_applyMemorySizes (c : Catalog) (config : Config) (name : String) :
    (c.applyMemorySizes config).find? name =
      (c.find? name).map fun m => m.sized (config.memorySize? m.name) := by
  rw [find?, models_applyMemorySizes, List.find?_map]
  rfl

end CircuitLowering.Catalog
