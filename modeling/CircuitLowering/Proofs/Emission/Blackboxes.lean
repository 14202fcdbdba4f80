import CircuitLowering.Emission.Writer
import CircuitLowering.Proofs.Emission.Reads
import CircuitLowering.Proofs.Ordered
import Mathlib.Data.List.Find

/-!
# Declaring blackboxes

Both writers go through the models of the catalog, declare the ones that are wanted and not reserved,
and stop where a name is taken.  In BLIF a list of names tells which are taken, in a design its
modules do.  `firstTaken` is the name at which either of them stops.
-/

namespace CircuitLowering

/-! ### Names that are taken -/

/-- The first of `names` that is among `taken` or before it in the list. -/
def firstTaken (taken : List String) : List String → Option String
  | [] => none
  | name :: names =>
    if name ∈ taken then some name else firstTaken (name :: taken) names

theorem firstTaken_congr {taken taken' : List String} (h : ∀ name, name ∈ taken ↔ name ∈ taken')
    (names : List String) : firstTaken taken names = firstTaken taken' names := by
  induction names generalizing taken taken' with
  | nil => rfl
  | cons name names ih =>
    have hcons : ∀ other, other ∈ name :: taken ↔ other ∈ name :: taken' := by
      intro other
      simp only [List.mem_cons, h other]
    simp only [firstTaken, h name, ih hcons]

/-- Among distinct names the first that is taken was taken from the start. -/
theorem firstTaken_of_nodup {taken names : List String} (h : names.Nodup) :
    firstTaken taken names = names.find? (· ∈ taken) := by
  induction names generalizing taken with
  | nil => rfl
  | cons name names ih =>
    obtain ⟨hname, hnames⟩ := List.nodup_cons.mp h
    by_cases htaken : name ∈ taken
    · simp [firstTaken, htaken]
    · have hrest : names.find? (· ∈ name :: taken) = names.find? (· ∈ taken) := by
        refine List.find?_congr fun other hother => ?_
        have hne : other ≠ name := fun heq => hname (heq ▸ hother)
        simp [hne]
      rw [firstTaken, if_neg htaken, ih hnames, hrest, List.find?_cons_of_neg (by simpa using htaken)]

theorem firstTaken_nil {names : List String} (h : names.Nodup) : firstTaken [] names = none := by
  rw [firstTaken_of_nodup h, List.find?_eq_none]
  intro name _
  simp

theorem firstTaken_singleton {names : List String} (h : names.Nodup) (name : String) :
    firstTaken [name] names = if name ∈ names then some name else none := by
  rw [firstTaken_of_nodup h]
  cases hfind : names.find? (· ∈ [name]) with
  | none =>
    have habsent : name ∉ names := fun hmem => List.find?_eq_none.mp hfind name hmem (by simp)
    rw [if_neg habsent]
  | some found =>
    have hfound : found = name := by simpa using List.find?_some hfind
    subst hfound
    rw [if_pos (List.mem_of_find?_eq_some hfind)]

def Report.declare (r : Report) (names : List String) : Report :=
  { r with blackboxes := r.blackboxes ++ names }

namespace Catalog

def declaredNames (referenced : List String) (models : List Model) : List String :=
  (models.filter fun m => isWanted referenced m && !isReserved m).map (·.name)

section Names

variable {referenced : List String} {m : Model} {models : List Model}

theorem declaredNames_cons_of_pos (hm : (isWanted referenced m && !isReserved m) = true) :
    declaredNames referenced (m :: models) = m.name :: declaredNames referenced models := by
  simp only [declaredNames, List.filter_cons, hm, if_true, List.map_cons]

theorem declaredNames_cons_of_neg (hm : ¬ (isWanted referenced m && !isReserved m) = true) :
    declaredNames referenced (m :: models) = declaredNames referenced models := by
  simp only [declaredNames, List.filter_cons, hm, Bool.false_eq_true, if_false]

theorem blackboxModels_cons_of_pos (hm : (isWanted referenced m && !isReserved m) = true) :
    blackboxModels ⟨m :: models⟩ referenced = m :: blackboxModels ⟨models⟩ referenced :=
  List.filter_cons_of_pos hm

theorem blackboxModels_cons_of_neg (hm : ¬ (isWanted referenced m && !isReserved m) = true) :
    blackboxModels ⟨m :: models⟩ referenced = blackboxModels ⟨models⟩ referenced :=
  List.filter_cons_of_neg hm

end Names

end Catalog

namespace Emit

open Catalog

variable {r : Run}

theorem declareBlif_reads (referenced : List String) (models : List Model) {ds : Declarations}
    (hds : ds.clash = none) :
    Reads (declareBlif referenced ds models) r none [] fun ds' r' =>
      ds'.clash = firstTaken ds.declared (declaredNames referenced models) ∧
        (ds'.clash = none →
          r'.report.tally = r.report.tally.declare (declaredNames referenced models)) := by
  induction models generalizing r ds with
  | nil => exact reads_pure ⟨hds, fun _ => by simp [declaredNames, Report.declare, Report.tally]⟩
  | cons m models ih =>
    refine reads_tellAll_bind ?_
    by_cases hm : isWanted referenced m && !isReserved m
    · rw [if_pos hm, declaredNames_cons_of_pos hm, firstTaken]
      by_cases htaken : m.name ∈ ds.declared
      · rw [if_pos htaken, if_pos htaken]
        exact reads_pure ⟨rfl, fun hclash => nomatch hclash⟩
      · rw [if_neg htaken, if_neg htaken]
        refine reads_demand_bind fun text _ => reads_modifyReport_bind rfl ?_
        refine (ih rfl).imp fun ds' r' _ ⟨hclash, htally⟩ => ⟨hclash, fun hnone => ?_⟩
        rw [htally hnone]
        simp [Report.declare, Report.tally]
    · rw [if_neg hm, declaredNames_cons_of_neg hm]
      exact ih hds

theorem declareModules_reads (referenced : List String) (models : List Model) (d : Design) :
    Reads (declareModules referenced d models) r none [] fun answer r' =>
      answer.2 = firstTaken d.modules.names (declaredNames referenced models) ∧
        (answer.2 = none →
          answer.1.modules.names = d.modules.names ++ declaredNames referenced models ∧
          r'.report.tally = r.report.tally.declare (declaredNames referenced models)) := by
  induction models generalizing r d with
  | nil => exact reads_pure ⟨rfl, fun _ => by simp [declaredNames, Report.declare, Report.tally]⟩
  | cons m models ih =>
    refine reads_tellAll_bind ?_
    by_cases hm : isWanted referenced m && !isReserved m
    · rw [if_pos hm, declaredNames_cons_of_pos hm, firstTaken]
      by_cases htaken : m.name ∈ d.modules.names
      · rw [if_pos ((d.modules.contains_iff m.name).mpr htaken), if_pos htaken]
        exact reads_pure ⟨rfl, fun hclash => nomatch hclash⟩
      · rw [if_neg (mt (d.modules.contains_iff m.name).mp htaken), if_neg htaken]
        refine reads_tellAll_bind (reads_demand_bind ?_)
        intro module _
        refine reads_modifyReport_bind rfl ?_
        have hinsert : (d.modules.insert m.name module).names = d.modules.names ++ [m.name] := by
          rw [Ordered.names_insert, if_neg htaken]
        have htaken (name : String) : name ∈ d.modules.names ++ [m.name] ↔
            name ∈ m.name :: d.modules.names := by
          rw [List.mem_append, List.mem_singleton, List.mem_cons, or_comm]
        have hrest := ih { d with modules := d.modules.insert m.name module }
          (r := { r with
            log := r.log ++ reservedEvents referenced m ++ m.blackboxEvents
            report := { r.report with blackboxes := r.report.blackboxes ++ [m.name] } })
        rw [hinsert, firstTaken_congr htaken] at hrest
        refine hrest.imp fun answer r' _ ⟨hclash, hdone⟩ => ⟨hclash, fun hnone => ?_⟩
        obtain ⟨hmodules, htally⟩ := hdone hnone
        rw [hmodules, htally]
        simp [Report.declare, Report.tally]
    · rw [if_neg hm, declaredNames_cons_of_neg hm]
      exact ih d

end Emit

end CircuitLowering
