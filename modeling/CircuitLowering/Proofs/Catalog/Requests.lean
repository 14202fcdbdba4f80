import CircuitLowering.Catalog.Indexed
import CircuitLowering.Proofs.Catalog.Names
import CircuitLowering.Proofs.Catalog.Resizing
import CircuitLowering.Proofs.Ordered

/-!
# What a catalog says after requests

A catalog is used by four kinds of requests, in any order.  What it says afterwards can be read off the
requests (`Catalog.Reflects`): the names in the order in which they were first registered, the ports of the
last registration of each name with the sizes that were given later, and the marks that found their model.

A catalog may be kept with an index that maps each name to the place of its model, so that no request
searches the models (`Catalog.Indexed`).  Answers and models are the same, and the index is the inverse of the
names (`Catalog.reflects_run`).
-/

namespace CircuitLowering.Catalog

inductive Request where
  | register (name : String) (inputs outputs : List ModelPort)
  | markUsed (name : String)
  | setPortSize (model port : String) (size : Nat)
  | applyMemorySizes (config : Config)
deriving DecidableEq, Repr

inductive Answer where
  /-- Where the model stands. -/
  | place (i : Option Nat)
  /-- Whether there is what the request is about. -/
  | found (success : Bool)
  | silent
deriving DecidableEq, Repr

namespace Request

def apply (c : Catalog) : Request → Catalog
  | register name inputs outputs => c.register name inputs outputs
  | markUsed name => c.markUsed name
  | setPortSize model port size => c.setPortSize model port size
  | applyMemorySizes config => c.applyMemorySizes config

def answer (c : Catalog) : Request → Answer
  | register name inputs outputs => .place ((c.register name inputs outputs).index? name)
  | markUsed name => .found (c.find? name).isSome
  | setPortSize model port _ => .found (c.hasPort model port)
  | applyMemorySizes _ => .silent

def registered? : Request → Option String
  | register name _ _ => some name
  | _ => none

def size? (model port : String) : Request → Option Nat
  | setPortSize model' port' size => if model' = model ∧ port' = port then some size else none
  | applyMemorySizes config => config.memorySize? model port
  | _ => none

end Request

def applyAll (c : Catalog) (rs : List Request) : Catalog := rs.foldl Request.apply c

def run (rs : List Request) : Catalog := applyAll {} rs

def answers (c : Catalog) : List Request → List Answer
  | [] => []
  | r :: rs => r.answer c :: answers (r.apply c) rs

/-! ### What requests say -/

def lastSize? (rs : List Request) (model port : String) : Option Nat :=
  (rs.filterMap (·.size? model port)).getLast?

/-- Whether requests mark the model of a name as used, with success. -/
def Marks (rs : List Request) (name : String) : Prop :=
  ∃ before after, rs = before ++ .markUsed name :: after ∧
    (Request.markUsed name).answer (run before) = .found true

/-- Whether a catalog says what requests said. -/
structure Reflects (c : Catalog) (rs : List Request) : Prop where
  names : c.models.map (·.name) = (rs.filterMap Request.registered?).eraseDups
  nodup : (c.models.map (·.name)).Nodup
  index : ∀ name i, c.index? name = some i ↔ (c.models[i]?).map (·.name) = some name
  /-- Each registration of a name was answered with the place that the name has. -/
  place : ∀ before name inputs outputs after, rs = before ++ .register name inputs outputs :: after →
    (Request.register name inputs outputs).answer (run before) = .place (c.index? name) ∧
      (c.index? name).isSome
  registered : ∀ name, (c.find? name).isSome ↔ ∃ r ∈ rs, r.registered? = some name
  used : ∀ name m, c.find? name = some m → (m.used = true ↔ Marks rs name)
  /-- The last registration of a name counts, with the sizes from later requests. -/
  ports : ∀ before name inputs outputs after, rs = before ++ .register name inputs outputs :: after →
    (∀ r ∈ after, r.registered? ≠ some name) →
    ∃ m, c.find? name = some m ∧
      Model.Resized (lastSize? after name) { name, inputs, outputs, used := m.used } m

/-! ### Catalogs with an index -/

namespace Indexed

def perform (x : Indexed) : Request → Answer × Indexed
  | .register name inputs outputs =>
    let (place, x) := x.register name inputs outputs
    (.place place, x)
  | .markUsed name =>
    let (success, x) := x.markUsed name
    (.found success, x)
  | .setPortSize model port size =>
    let (success, x) := x.setPortSize model port size
    (.found success, x)
  | .applyMemorySizes config => (.silent, x.applyMemorySizes config)

def performAll (x : Indexed) : List Request → List Answer × Indexed
  | [] => ([], x)
  | r :: rs =>
    let (answer, x) := x.perform r
    let (answers, x) := x.performAll rs
    (answer :: answers, x)

end Indexed

variable {c : Catalog} {x : Indexed} {r : Request} {rs before after : List Request} {name : String}
  {i : Nat} {m : Model} {f : Model → Model}

/-! ### Names and places -/

theorem run_concat (rs : List Request) (r : Request) : run (rs ++ [r]) = r.apply (run rs) := by
  simp [run, applyAll]

theorem run_append (before after : List Request) : run (before ++ after) = (run before).applyAll after := by
  simp [run, applyAll]

theorem names_apply (c : Catalog) (r : Request) :
    (r.apply c).names =
      match r.registered? with
      | some name => if name ∈ c.names then c.names else c.names ++ [name]
      | none => c.names := by
  cases r with
  | register name inputs outputs => exact names_register c name inputs outputs
  | markUsed name => exact map_name_update c name fun _ => rfl
  | setPortSize model port size => exact names_setPortSize c model port size
  | applyMemorySizes config => exact names_applyMemorySizes c config

theorem names_run (rs : List Request) : (run rs).names = (rs.filterMap Request.registered?).eraseDups := by
  induction rs using List.reverseRecOn with
  | nil => rfl
  | append_singleton rs r ih =>
    rw [run_concat, names_apply, List.filterMap_append]
    cases hr : r.registered? with
    | none => simp [hr, ih]
    | some name => simp [hr, ih, eraseDups_concat]

theorem isSome_find?_run (rs : List Request) (name : String) :
    ((run rs).find? name).isSome = true ↔ ∃ r ∈ rs, r.registered? = some name := by
  rw [isSome_find?_iff, names_run, List.mem_eraseDups, List.mem_filterMap]

theorem nodup_apply (hc : c.names.Nodup) (r : Request) : (r.apply c).names.Nodup := by
  cases r with
  | register name inputs outputs => exact nodup_register hc name inputs outputs
  | markUsed name => exact nodup_update hc name fun _ => rfl
  | setPortSize model port size => rwa [Request.apply, names_setPortSize]
  | applyMemorySizes config => rwa [Request.apply, names_applyMemorySizes]

theorem nodup_run (rs : List Request) : (run rs).names.Nodup := by
  induction rs using List.reverseRecOn with
  | nil => exact List.nodup_nil
  | append_singleton rs r ih =>
    rw [run_concat]
    exact nodup_apply ih r

theorem index?_applyAll (h : c.index? name = some i) (rs : List Request) :
    (c.applyAll rs).index? name = some i := by
  induction rs generalizing c with
  | nil => exact h
  | cons r rs ih =>
    apply ih
    have hnames := names_apply c r
    split at hnames
    · next new _ =>
      split at hnames
      · exact index?_of_names (hnames.trans (List.append_nil _).symm) h
      · exact index?_of_names hnames h
    · exact index?_of_names (hnames.trans (List.append_nil _).symm) h

theorem isSome_index?_register (c : Catalog) (name : String) (inputs outputs : List ModelPort) :
    ((c.register name inputs outputs).index? name).isSome = true := by
  rw [isSome_index?_iff, names_register]
  split
  · assumption
  · simp

/-! ### Models one by one -/

def Request.change (r : Request) (m : Model) : Model :=
  match r with
  | register name inputs outputs => if m.name = name then { m with inputs, outputs } else m
  | markUsed name => if m.name = name then { m with used := true } else m
  | setPortSize model port size => if m.name = model then m.resize port size else m
  | applyMemorySizes config => m.sized (config.memorySize? m.name)

theorem find?_apply (h : c.find? name = some m) (r : Request) :
    (r.apply c).find? name = some (r.change m) := by
  obtain rfl := name_of_find? h
  cases r with
  | register name' inputs outputs =>
    rw [Request.apply, Request.change, find?_register]
    by_cases hname : m.name = name'
    · subst hname
      simp [h]
    · simp [hname, h]
  | markUsed name' =>
    rw [Request.apply, Request.change, markUsed, find?_update _ _ (fun _ => by rfl), h]
    split <;> rfl
  | setPortSize model port size =>
    rw [Request.apply, Request.change, setPortSize, find?_update _ _ (fun m => name_resize m port size), h]
    split <;> rfl
  | applyMemorySizes config => rw [Request.apply, Request.change, find?_applyMemorySizes, h, Option.map_some]

/-- A model that comes in is not used. -/
theorem used_of_find?_apply (hnone : c.find? name = none) (h : (r.apply c).find? name = some m) :
    m.used = false := by
  cases r with
  | register name' inputs outputs =>
    rw [Request.apply, find?_register] at h
    split at h
    · next hname =>
      subst hname
      rw [hnone] at h
      cases h
      rfl
    · rw [hnone] at h
      cases h
  | markUsed name' =>
    rw [Request.apply, markUsed, find?_update _ _ (fun _ => by rfl), hnone] at h
    split at h <;> cases h
  | setPortSize model port size =>
    rw [Request.apply, setPortSize, find?_update _ _ (fun m => name_resize m port size), hnone] at h
    split at h <;> cases h
  | applyMemorySizes config =>
    rw [Request.apply, find?_applyMemorySizes, hnone] at h
    cases h

theorem isSome_find?_applyAll (h : (c.find? name).isSome) (rs : List Request) :
    ((c.applyAll rs).find? name).isSome := by
  induction rs generalizing c with
  | nil => exact h
  | cons r rs ih =>
    obtain ⟨m, hm⟩ := Option.isSome_iff_exists.mp h
    exact ih (by rw [find?_apply hm, Option.isSome_some])

/-! ### Marks -/

theorem used_change (r : Request) (m : Model) :
    (r.change m).used = true ↔ m.used = true ∨ r = .markUsed m.name := by
  cases r with
  | register name inputs outputs =>
    rw [Request.change]
    split <;> simp
  | markUsed name =>
    rw [Request.change]
    split
    · next h => simp [h]
    · next h => simp [Ne.symm h]
  | setPortSize model port size =>
    have hused : (m.resize port size).used = m.used := by
      unfold Model.resize
      split <;> rfl
    rw [Request.change]
    split <;> simp [hused]
  | applyMemorySizes config => simp [Request.change, Model.sized]

theorem marks_concat (rs : List Request) (r : Request) (name : String) :
    Marks (rs ++ [r]) name ↔
      Marks rs name ∨ (r = .markUsed name ∧ ((run rs).find? name).isSome) := by
  constructor
  · rintro ⟨before, after, hrs, hanswer⟩
    rcases List.eq_nil_or_concat after with rfl | ⟨after, last, rfl⟩
    · obtain ⟨rfl, rfl⟩ := List.append_singleton_inj.mp hrs
      exact Or.inr ⟨rfl, by simpa [Request.answer] using hanswer⟩
    · rw [List.concat_eq_append, ← List.cons_append, ← List.append_assoc] at hrs
      exact Or.inl ⟨before, after, (List.append_singleton_inj.mp hrs).1, hanswer⟩
  · rintro (⟨before, after, rfl, hanswer⟩ | ⟨rfl, hfound⟩)
    · exact ⟨before, after ++ [r], by simp, hanswer⟩
    · exact ⟨rs, [], rfl, by rw [Request.answer, hfound]⟩

theorem isSome_find?_of_marks (h : Marks rs name) : ((run rs).find? name).isSome := by
  obtain ⟨before, after, rfl, hanswer⟩ := h
  rw [run_append]
  exact isSome_find?_applyAll (by simpa [Request.answer] using hanswer) _

theorem used_iff_marks (h : (run rs).find? name = some m) : m.used = true ↔ Marks rs name := by
  induction rs using List.reverseRecOn generalizing m with
  | nil => cases h
  | append_singleton rs r ih =>
    rw [marks_concat]
    rw [run_concat] at h
    cases hold : (run rs).find? name with
    | none =>
      have hmarks : ¬ Marks rs name := fun hmarks => by
        have hfound := isSome_find?_of_marks hmarks
        rw [hold] at hfound
        cases hfound
      simp [used_of_find?_apply hold h, hmarks]
    | some old =>
      rw [find?_apply hold, Option.some.injEq] at h
      subst h
      rw [used_change, ih hold, name_of_find? hold]
      simp

/-! ### Ports -/

theorem lastSize?_concat (rs : List Request) (r : Request) (model port : String) :
    lastSize? (rs ++ [r]) model port = (r.size? model port).or (lastSize? rs model port) :=
  getLast?_filterMap_concat _ rs r

/-- A request that does not register a model again gives sizes to its ports. -/
theorem change_sized (h : r.registered? ≠ some m.name) (size? : String → Option Nat) :
    ∃ used, r.change (m.sized size?) =
      { m with used }.sized fun port => (r.size? m.name port).or (size? port) := by
  have hname : (m.sized size?).name = m.name := rfl
  cases r with
  | register name inputs outputs =>
    have hne : m.name ≠ name := fun heq => h (by rw [Request.registered?, heq])
    exact ⟨m.used, by simp [Request.change, hname, hne, Request.size?]⟩
  | markUsed name =>
    by_cases heq : m.name = name
    · exact ⟨true, by simp [Request.change, heq, Request.size?, Model.sized]⟩
    · exact ⟨m.used, by simp [Request.change, hname, heq, Request.size?]⟩
  | setPortSize model port size =>
    refine ⟨m.used, ?_⟩
    by_cases heq : m.name = model
    · have hsizes : Function.update size? port (some size) =
          fun port' => (Request.size? m.name port' (.setPortSize model port size)).or (size? port') := by
        funext port'
        by_cases hport : port' = port
        · simp [Request.size?, heq, hport]
        · simp [Request.size?, hport, Ne.symm hport]
      rw [Request.change, hname, if_pos heq, Model.resize_sized, hsizes]
    · simp [Request.change, hname, heq, Request.size?, Ne.symm heq]
  | applyMemorySizes config =>
    exact ⟨m.used, by rw [Request.change, hname, Model.sized_sized]; rfl⟩

/-- The model of a name after it was registered for the last time. -/
theorem exists_find?_run (before : List Request) (name : String) (inputs outputs : List ModelPort)
    (hafter : ∀ r ∈ after, r.registered? ≠ some name) :
    ∃ used, (run (before ++ .register name inputs outputs :: after)).find? name =
      some (({ name, inputs, outputs, used } : Model).sized (lastSize? after name)) := by
  induction after using List.reverseRecOn with
  | nil =>
    refine ⟨((run before).find? name).any (·.used), ?_⟩
    rw [run_concat, Request.apply, find?_register, if_pos rfl]
    exact congrArg some (Model.sized_none _).symm
  | append_singleton after r ih =>
    obtain ⟨used, hfind⟩ := ih fun r hr => hafter r (List.mem_append_left _ hr)
    have hr : r.registered? ≠ some name := hafter r (by simp)
    obtain ⟨used', hchange⟩ := change_sized (m := { name, inputs, outputs, used }) hr
      (lastSize? after name)
    have hsizes : lastSize? (after ++ [r]) name =
        fun port => (r.size? name port).or (lastSize? after name port) :=
      funext (lastSize?_concat after r name)
    refine ⟨used', ?_⟩
    rw [← List.cons_append, ← List.append_assoc, run_concat, find?_apply hfind, hchange, hsizes]

/-! ### The index -/

/-- Whether a catalog with an index is the same catalog. -/
structure Indexed.Agrees (x : Indexed) (c : Catalog) : Prop where
  models : x.models = c.models
  index : ∀ name, x.index.get? name = c.index? name
  nodup : c.names.Nodup

theorem agrees_empty : Indexed.Agrees {} {} := ⟨rfl, fun _ => rfl, List.nodup_nil⟩

theorem agrees_change (h : x.Agrees c) (hi : x.index.get? name = some i)
    (hf : ∀ m, (f m).name = m.name) : (x.change i f).Agrees (c.update name f) where
  models := by
    rw [Indexed.change, h.models, update_eq_modify h.nodup (h.index name ▸ hi)]
  index := by
    intro other
    have hnames : (c.update name f).names = c.names := map_name_update c name hf
    rw [index?_eq, hnames, ← index?_eq]
    exact h.index other
  nodup := nodup_update h.nodup name hf

/-- What the index does not have, the catalog does not have. -/
theorem notMem_of_agrees (h : x.Agrees c) (hnone : x.index.get? name = none) : name ∉ c.names := by
  rw [← isSome_index?_iff, ← h.index, hnone]
  simp

theorem find?_of_agrees (h : x.Agrees c) (name : String) : c.find? name = x.find? name := by
  rw [find?_eq, Indexed.find?, h.index, h.models]

theorem agrees_setPortSize (h : x.Agrees c) (model port : String) (size : Nat) :
    (x.setPortSize model port size).1 = c.hasPort model port ∧
      (x.setPortSize model port size).2.Agrees (c.setPortSize model port size) := by
  rw [Indexed.setPortSize, hasPort, find?_of_agrees h, Indexed.find?, setPortSize]
  cases hi : x.index.get? model with
  | some i => exact ⟨rfl, agrees_change h hi fun m => name_resize m port size⟩
  | none => exact ⟨rfl, by rwa [update_of_notMem (notMem_of_agrees h hi)]⟩

theorem agrees_setPortSizes (h : x.Agrees c) (sizes : List (String × String × Nat)) :
    (sizes.foldl (fun x (model, port, size) => (x.setPortSize model port size).2) x).Agrees
      (sizes.foldl (fun c (model, port, size) => c.setPortSize model port size) c) := by
  induction sizes generalizing x c with
  | nil => exact h
  | cons s sizes ih => exact ih (agrees_setPortSize h s.1 s.2.1 s.2.2).2

theorem agrees_register_new (h : x.Agrees c) (hnone : x.index.get? name = none)
    (inputs outputs : List ModelPort) :
    (c.register name inputs outputs).index? name = some x.models.length ∧
      Indexed.Agrees { models := x.models ++ [{ name, inputs, outputs }]
                       index := x.index.insert name x.models.length }
        (c.register name inputs outputs) := by
  have hnew := notMem_of_agrees h hnone
  have hnames : (c.register name inputs outputs).names = c.names ++ [name] := by
    rw [names_register, if_neg hnew]
  have hlength : c.names.length = x.models.length := by
    rw [h.models, names, List.length_map]
  have hindex (other : String) : (c.register name inputs outputs).index? other =
      (c.index? other).or (if name = other then some x.models.length else none) := by
    rw [index?_eq, hnames, List.findIdx?_append, ← index?_eq, hlength]
    by_cases hother : name = other <;> simp [hother]
  have habsent : c.index? name = none := h.index name ▸ hnone
  refine ⟨by simp [hindex, habsent], ?_, ?_, nodup_register h.nodup name inputs outputs⟩
  · rw [register, if_neg (mt isSome_find?_iff.mp hnew), h.models]
  · intro other
    dsimp only
    rw [hindex]
    by_cases hother : other = name
    · subst hother
      simp [habsent]
    · rw [Ordered.get?_insert_of_ne _ hother, h.index, if_neg (Ne.symm hother), Option.or_none]

theorem agrees_register (h : x.Agrees c) (name : String) (inputs outputs : List ModelPort) :
    (c.register name inputs outputs).index? name = some (x.register name inputs outputs).1 ∧
      (x.register name inputs outputs).2.Agrees (c.register name inputs outputs) := by
  rw [Indexed.register]
  cases hi : x.index.get? name with
  | some i =>
    have hmem : name ∈ c.names := by
      rw [← isSome_index?_iff, ← h.index, hi, Option.isSome_some]
    have hregister : c.register name inputs outputs = c.update name ({ · with inputs, outputs }) :=
      if_pos (isSome_find?_iff.mpr hmem)
    have hchange := agrees_change (f := ({ · with inputs, outputs })) h hi fun _ => rfl
    rw [hregister]
    exact ⟨(hchange.index name).symm.trans hi, hchange⟩
  | none => exact agrees_register_new h hi inputs outputs

theorem agrees_markUsed (h : x.Agrees c) (name : String) :
    (x.markUsed name).1 = (c.find? name).isSome ∧ (x.markUsed name).2.Agrees (c.markUsed name) := by
  rw [Indexed.markUsed, find?_of_agrees h, Indexed.find?]
  cases hi : x.index.get? name with
  | some i =>
    have hplace := (index?_eq_some_iff h.nodup).mp (h.index name ▸ hi)
    obtain ⟨m, hm, -⟩ := Option.map_eq_some_iff.mp hplace
    exact ⟨by simp [h.models, hm], agrees_change h hi fun _ => rfl⟩
  | none =>
    refine ⟨rfl, ?_⟩
    rwa [markUsed, update_of_notMem (notMem_of_agrees h hi)]

/-- A request has one answer and does one thing, with the index and without it. -/
theorem agrees_perform (h : x.Agrees c) (r : Request) :
    (x.perform r).1 = r.answer c ∧ (x.perform r).2.Agrees (r.apply c) := by
  cases r with
  | register name inputs outputs =>
    obtain ⟨hplace, hagrees⟩ := agrees_register h name inputs outputs
    exact ⟨congrArg Answer.place hplace.symm, hagrees⟩
  | markUsed name =>
    obtain ⟨hfound, hagrees⟩ := agrees_markUsed h name
    exact ⟨congrArg Answer.found hfound, hagrees⟩
  | setPortSize model port size =>
    obtain ⟨hfound, hagrees⟩ := agrees_setPortSize h model port size
    exact ⟨congrArg Answer.found hfound, hagrees⟩
  | applyMemorySizes config => exact ⟨rfl, agrees_setPortSizes h _⟩

theorem agrees_performAll (h : x.Agrees c) (rs : List Request) :
    (x.performAll rs).1 = answers c rs ∧ (x.performAll rs).2.Agrees (c.applyAll rs) := by
  induction rs generalizing x c with
  | nil => exact ⟨rfl, h⟩
  | cons r rs ih =>
    obtain ⟨hanswer, hagrees⟩ := agrees_perform h r
    obtain ⟨hanswers, hrest⟩ := ih hagrees
    exact ⟨congrArg₂ List.cons hanswer hanswers, hrest⟩

/-- After any requests, in any order, a new catalog says what they said.  When it is kept with an index, the
answers and the models are the same, and the index has each name at the place of its model. -/
theorem reflects_run (rs : List Request) :
    (run rs).Reflects rs ∧
    let x := Indexed.performAll {} rs
    x.1 = answers {} rs ∧ x.2.models = (run rs).models ∧
      (∀ name i, x.2.index.get? name = some i ↔ (x.2.models[i]?).map (·.name) = some name) ∧
      ∀ name, (run rs).find? name = (x.2.index.get? name).bind fun i => x.2.models[i]? := by
  have hindex (name : String) (i : Nat) :
      (run rs).index? name = some i ↔ ((run rs).models[i]?).map (·.name) = some name :=
    index?_eq_some_iff (nodup_run rs)
  obtain ⟨hanswers, hagrees⟩ := agrees_performAll agrees_empty rs
  refine ⟨⟨names_run rs, nodup_run rs, hindex, ?_, isSome_find?_run rs, fun _ _ => used_iff_marks, ?_⟩,
    hanswers, hagrees.models, ?_, find?_of_agrees hagrees⟩
  · rintro before name inputs outputs after rfl
    obtain ⟨i, hi⟩ := Option.isSome_iff_exists.mp
      (isSome_index?_register (run before) name inputs outputs)
    have hlast : (run (before ++ .register name inputs outputs :: after)).index? name = some i := by
      rw [run_append]
      exact index?_applyAll (c := (run before).register name inputs outputs) hi after
    rw [hlast, Request.answer, hi]
    exact ⟨rfl, rfl⟩
  · rintro before name inputs outputs after rfl hafter
    obtain ⟨used, hfind⟩ := exists_find?_run before name inputs outputs hafter
    exact ⟨_, hfind, Model.resized_sized _ _⟩
  · intro name i
    rw [hagrees.index, hagrees.models]
    exact hindex name i

end CircuitLowering.Catalog
