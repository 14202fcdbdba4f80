import CircuitLowering.Catalog.Basic
import Mathlib.Logic.Function.Basic

/-!
# The sizes of split memories

The settings for split memories give sizes to ports of the two memory models one after the other.  All
at once they are a function from model and port (`Config.memorySize?`), and applying them sizes the first
port of each name, inputs before outputs (`Catalog.models_applyMemorySizes`).
-/

namespace CircuitLowering

/-- The size that the settings for split memories give to a port, if they give one: the data ports have
one bit where memories were split by width, and the address ports have the width that is set. -/
def Config.memorySize? (config : Config) (model port : String) : Option Nat :=
  if model = singlePortRam then
    if port ∈ ["data", "out"] then if config.splitMemoryWidth then some 1 else none
    else if port = "addr" then config.splitMemoryDepth.map UInt64.toNat
    else none
  else if model = dualPortRam then
    if port ∈ ["data1", "data2", "out1", "out2"] then if config.splitMemoryWidth then some 1 else none
    else if port ∈ ["addr1", "addr2"] then config.dualPortDepth.map UInt64.toNat
    else none
  else none

namespace Model

variable {size? : String → Option Nat} {name : String} {size : Nat} {seen : List String}
  {ports : List ModelPort}

/-- Gives sizes to the first ports of their names, those in `seen` having come before. -/
def sizeFirsts (size? : String → Option Nat) : List String → List ModelPort → List ModelPort
  | _, [] => []
  | seen, p :: rest =>
    { p with size := if p.name ∈ seen then p.size else (size? p.name).getD p.size } ::
      sizeFirsts size? (p.name :: seen) rest

/-- The model with sizes given to the first ports of their names, inputs before outputs. -/
def sized (m : Model) (size? : String → Option Nat) : Model :=
  { m with
    inputs := sizeFirsts size? [] m.inputs
    outputs := sizeFirsts size? (m.inputs.map (·.name)) m.outputs }

theorem sizeFirsts_none (seen : List String) (ports : List ModelPort) :
    sizeFirsts (fun _ => none) seen ports = ports := by
  induction ports generalizing seen with
  | nil => rfl
  | cons p rest ih => simp [sizeFirsts, ih]

/-- Whatever sizes are given, names and directions stay. -/
theorem map_interface_sizeFirsts (size? : String → Option Nat) (seen : List String)
    (ports : List ModelPort) :
    (sizeFirsts size? seen ports).map (fun p => (p.name, p.direction)) =
      ports.map fun p => (p.name, p.direction) := by
  induction ports generalizing seen with
  | nil => rfl
  | cons p rest ih => simp [sizeFirsts, ih]

theorem map_name_sizeFirsts (size? : String → Option Nat) (seen : List String) (ports : List ModelPort) :
    (sizeFirsts size? seen ports).map (·.name) = ports.map (·.name) := by
  simpa [Function.comp_def] using congrArg (List.map Prod.fst) (map_interface_sizeFirsts size? seen ports)

/-- Only the sizes of names that are not seen count. -/
theorem sizeFirsts_update_of_mem (h : name ∈ seen) (size? : String → Option Nat) (size : Option Nat)
    (ports : List ModelPort) :
    sizeFirsts (Function.update size? name size) seen ports = sizeFirsts size? seen ports := by
  induction ports generalizing seen with
  | nil => rfl
  | cons p rest ih =>
    rw [sizeFirsts, sizeFirsts, ih (List.mem_cons_of_mem _ h)]
    by_cases hseen : p.name ∈ seen
    · simp [hseen]
    · have hne : p.name ≠ name := fun heq => hseen (heq ▸ h)
      simp [hseen, Function.update_of_ne hne]

theorem resizeFirst_sizeFirsts (h : name ∉ seen) (size? : String → Option Nat) (size : Nat)
    (ports : List ModelPort) :
    resizeFirst name size (sizeFirsts size? seen ports) =
      sizeFirsts (Function.update size? name (some size)) seen ports := by
  induction ports generalizing seen with
  | nil => rfl
  | cons p rest ih =>
    rw [sizeFirsts, sizeFirsts, resizeFirst]
    by_cases hname : p.name = name
    · subst hname
      simp [h, sizeFirsts_update_of_mem]
    · have hrest : name ∉ p.name :: seen := by simp [Ne.symm hname, h]
      rw [if_neg hname, ih hrest, Function.update_of_ne hname]

/-- A port without the name is not resized. -/
theorem sizeFirsts_update_of_notMem (h : name ∉ ports.map (·.name)) (size? : String → Option Nat)
    (size : Option Nat) (seen : List String) :
    sizeFirsts (Function.update size? name size) seen ports = sizeFirsts size? seen ports := by
  induction ports generalizing seen with
  | nil => rfl
  | cons p rest ih =>
    rw [List.map_cons, List.mem_cons, not_or] at h
    rw [sizeFirsts, sizeFirsts, ih h.2, Function.update_of_ne (Ne.symm h.1)]

/-- Giving one size more. -/
theorem resize_sized (m : Model) (size? : String → Option Nat) (name : String) (size : Nat) :
    (m.sized size?).resize name size = m.sized (Function.update size? name (some size)) := by
  have hany (ports : List ModelPort) :
      (ports.any fun p => p.name = name) = true ↔ name ∈ ports.map (·.name) := by
    simp [List.any_eq_true]
  unfold resize
  by_cases hmem : name ∈ m.inputs.map (·.name)
  · have hinput : ((m.sized size?).inputs.any fun p => p.name = name) = true := by
      rwa [hany, sized, map_name_sizeFirsts]
    rw [if_pos hinput]
    simp only [sized]
    rw [resizeFirst_sizeFirsts List.not_mem_nil, sizeFirsts_update_of_mem hmem]
  · have hinput : ¬ ((m.sized size?).inputs.any fun p => p.name = name) = true := by
      rwa [hany, sized, map_name_sizeFirsts]
    rw [if_neg hinput]
    simp only [sized]
    rw [resizeFirst_sizeFirsts hmem, sizeFirsts_update_of_notMem hmem]

end Model

namespace Catalog

def giveSize (size? : String → String → Option Nat) (s : String × String × Nat) :
    String → String → Option Nat :=
  Function.update size? s.1 (Function.update (size? s.1) s.2.1 (some s.2.2))

theorem models_setPortSizes {c : Catalog} {models : List Model} (size? : String → String → Option Nat)
    (h : c.models = models.map fun m => m.sized (size? m.name)) (sizes : List (String × String × Nat)) :
    (sizes.foldl (fun c (model, port, size) => c.setPortSize model port size) c).models =
      models.map fun m => m.sized (sizes.foldl giveSize size? m.name) := by
  induction sizes generalizing c size? with
  | nil => exact h
  | cons s sizes ih =>
    refine ih _ ?_
    change (c.update s.1 (·.resize s.2.1 s.2.2)).models = _
    rw [update, h, List.map_map]
    refine List.map_congr_left fun m _ => ?_
    have hname : (m.sized (size? m.name)).name = m.name := rfl
    rw [Function.comp_apply, hname, giveSize]
    by_cases hmodel : m.name = s.1
    · rw [if_pos hmodel, Model.resize_sized, hmodel, Function.update_self]
    · rw [if_neg hmodel, Function.update_of_ne hmodel]

def portSizes (model : String) (ports : List String) (size : Option Nat) :
    List (String × String × Nat) :=
  size.elim [] fun size => ports.map (model, ·, size)

theorem foldl_giveSize (size? : String → String → Option Nat) (model : String) (ports : List String)
    (size : Option Nat) (m p : String) :
    (portSizes model ports size).foldl giveSize size? m p =
      if m = model ∧ p ∈ ports then size.or (size? m p) else size? m p := by
  cases size with
  | none => simp [portSizes]
  | some size =>
    rw [portSizes, Option.elim_some]
    induction ports generalizing size? with
    | nil => simp
    | cons port ports ih =>
      rw [List.map_cons, List.foldl_cons, ih]
      by_cases hm : m = model
      · subst hm
        by_cases hp : p = port <;> simp [giveSize, hp]
      · simp [giveSize, hm]

theorem memorySizes_eq (config : Config) :
    let width := if config.splitMemoryWidth then some 1 else none
    memorySizes config =
      portSizes singlePortRam ["data", "out"] width ++
        portSizes singlePortRam ["addr"] (config.splitMemoryDepth.map UInt64.toNat) ++
        portSizes dualPortRam ["data1", "data2", "out1", "out2"] width ++
        portSizes dualPortRam ["addr1", "addr2"] (config.dualPortDepth.map UInt64.toNat) := by
  unfold memorySizes portSizes
  cases config.splitMemoryWidth <;> cases config.splitMemoryDepth <;> cases config.dualPortDepth <;> rfl

/-- No two of the settings give a size to the same port. -/
theorem foldl_memorySizes (config : Config) :
    (memorySizes config).foldl giveSize (fun _ _ => none) = config.memorySize? := by
  funext m p
  rw [memorySizes_eq]
  simp only [List.foldl_append, foldl_giveSize, Option.or_none, Config.memorySize?]
  have hmodels : singlePortRam ≠ dualPortRam := by decide
  by_cases hsingle : m = singlePortRam
  · by_cases haddr : p = "addr" <;> simp [hsingle, hmodels, haddr]
  · by_cases hdual : m = dualPortRam
    · have hports : p ∈ ["addr1", "addr2"] → p ∉ ["data1", "data2", "out1", "out2"] := by
        simp only [List.mem_cons, List.not_mem_nil, or_false]
        rintro (rfl | rfl) <;> decide
      by_cases haddr : p ∈ ["addr1", "addr2"]
      · simp [hdual, hmodels.symm, haddr, hports haddr]
      · simp [hdual, hmodels.symm, haddr]
    · simp [hsingle, hdual]

/-- Setting a run up gives the memories the sizes that its settings ask for, all at once. -/
theorem models_applyMemorySizes (c : Catalog) (config : Config) :
    (c.applyMemorySizes config).models = c.models.map fun m => m.sized (config.memorySize? m.name) := by
  have hnothing : c.models = c.models.map fun m => m.sized fun _ => none := by
    refine ((List.map_congr_left fun m _ => ?_).trans (List.map_id _)).symm
    rw [Model.sized, Model.sizeFirsts_none, Model.sizeFirsts_none, id]
  rw [applyMemorySizes, models_setPortSizes (fun _ _ => none) hnothing, foldl_memorySizes]

end Catalog

end CircuitLowering
