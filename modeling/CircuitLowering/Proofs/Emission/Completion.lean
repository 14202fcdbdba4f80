import CircuitLowering.Proofs.Design.CellWidths
import CircuitLowering.Proofs.Emission.BlifFailures

/-!
# Actions that complete under a condition

Building a design can fail in a way in which writing BLIF does not: at widths of signals.  An action
completes just where a condition holds if it comes to an answer there and to a fault of widths
elsewhere (`Emit.CompletesIff`), errors of the circuit apart.  There is one rule for each way to build an
action.  With them it is said when the blackbox modules of models are added
(`Emit.completesIff_declareModules`) and when the cell of a primitive is made
(`Cell.answersIff_ofPrimitive`).
-/

namespace CircuitLowering

open Text

namespace Emit

variable {α β : Type} {r : Run} {C D : Prop}

/-- Whether the action started in `r` comes to an answer in `done` just where `C` holds, and to a fault
of widths elsewhere, if it does not stop with an error of the circuit. -/
def CompletesIff (x : Emit α) (r : Run) (C : Prop) (done : α → Run → Prop) : Prop :=
  match x r with
  | .ok a s => C ∧ done a s
  | .error (.error _) _ => True
  | .error (.fault f) _ => ¬ C ∧ f.IsWidth
  | .error (.violated _) _ => False

variable {done : α → Run → Prop} {done' : β → Run → Prop}

theorem completesIff_pure {a : α} (hC : C) (ha : done a r) : CompletesIff (pure a) r C done := ⟨hC, ha⟩

theorem CompletesIff.imp {x : Emit α} {done' : α → Run → Prop} (h : CompletesIff x r C done)
    (hiff : C ↔ D) (hdone : ∀ a s, done a s → done' a s) : CompletesIff x r D done' := by
  unfold CompletesIff at h ⊢
  split at h
  · exact ⟨hiff.mp h.1, hdone _ _ h.2⟩
  · trivial
  · exact ⟨mt hiff.mpr h.1, h.2⟩
  · exact h

theorem CompletesIff.bind {x : Emit α} {f : α → Emit β} (hx : CompletesIff x r C done)
    (hf : ∀ a s, x r = .ok a s → done a s → CompletesIff (f a) s D done') :
    CompletesIff (x >>= f) r (C ∧ D) done' := by
  change CompletesIff (EStateM.bind x f) r _ done'
  unfold CompletesIff at hx
  unfold CompletesIff EStateM.bind
  cases hax : x r with
  | ok a s =>
    rw [hax] at hx
    exact (hf a s hax hx.2).imp (and_iff_right hx.1).symm fun _ _ h => h
  | error failure s =>
    rw [hax] at hx
    cases failure with
    | error e => trivial
    | violated i => exact hx
    | fault fault => exact ⟨fun h => hx.1 h.1, hx.2⟩

theorem Regular.completesIff {x : Emit α} (h : Regular x r) (hC : C)
    (ha : ∀ a s, x r = .ok a s → done a s) : CompletesIff x r C done := by
  unfold CompletesIff
  cases hx : x r with
  | ok a s => exact ⟨hC, ha a s hx⟩
  | error failure s =>
    obtain ⟨e, rfl⟩ := h failure s hx
    trivial

/-- A regular action first. -/
theorem Regular.completesIff_bind {x : Emit α} {f : α → Emit β} (h : Regular x r)
    (hf : ∀ a s, x r = .ok a s → CompletesIff (f a) s C done') : CompletesIff (x >>= f) r C done' :=
  ((h.completesIff trivial fun _ _ hx => hx).bind fun a s hax _ => hf a s hax).imp (by simp)
    fun _ _ h => h

/-- An action that is known to come to an answer first. -/
theorem completesIff_ok_bind {x : Emit α} {f : α → Emit β} {a : α} {s : Run} (hx : x r = .ok a s)
    (hf : CompletesIff (f a) s C done') : CompletesIff (x >>= f) r C done' := by
  refine (regular_of_ok hx).completesIff_bind ?_
  intro a' s' hok
  cases hx.symm.trans hok
  exact hf

theorem completesIff_demand {x : Except Fault α} {answers : α → Prop} (h : AnswersIff x C answers) :
    CompletesIff (demand x) r C fun a s => s = r ∧ x = .ok a ∧ answers a := by
  cases x with
  | ok a => exact ⟨h.1, rfl, rfl, h.2⟩
  | error f => exact h

end Emit

/-! ### Blackbox modules -/

theorem Capacity.fits_max_one {count : Nat} :
    fits signalBitBytes (max 1 count) = true ↔ fits signalBitBytes count = true := by
  rw [fits_max]
  exact and_iff_right rfl

/-- Whether a design has the modules of some models and no others, with wires as wide as the buses that
the names of bits make. -/
structure Design.HasBlackboxes (d : Design) (models : List Model) : Prop where
  names : d.modules.names = models.map (·.name)
  widths : ∀ model wire,
    Capacity.fits Capacity.signalBitBytes ((d.wireWidth? model wire).getD 0) = true ↔
      ∀ m ∈ models, m.name = model →
        Capacity.fits Capacity.signalBitBytes (Buses.busWidth m.busBits wire) = true

namespace Design

theorem hasBlackboxes_empty : HasBlackboxes {} [] where
  names := rfl
  widths _ _ := by
    change Capacity.fits Capacity.signalBitBytes 0 = true ↔ _
    simp [Capacity.fits]

variable {d : Design} {models : List Model} {m : Model} {module : Module}

theorem wireWidth?_insert (d : Design) (name model wire : String) (module : Module) :
    wireWidth? { d with modules := d.modules.insert name module } model wire =
      if model = name then module.widths wire else d.wireWidth? model wire := by
  unfold wireWidth? module?
  by_cases h : model = name
  · rw [if_pos h, h, Ordered.get?_insert_self]
    rfl
  · rw [if_neg h, Ordered.get?_insert_of_ne d.modules h]

theorem HasBlackboxes.insert (h : d.HasBlackboxes models) (hnew : m.name ∉ models.map (·.name))
    (hmodule : ∀ name, max 1 ((module.widths name).getD 0) = max 1 (Buses.busWidth m.busBits name)) :
    HasBlackboxes { d with modules := d.modules.insert m.name module } (models ++ [m]) := by
  constructor
  · rw [Ordered.names_insert_of_notMem (h.names ▸ hnew), h.names, List.map_append]
    rfl
  · intro model wire
    rw [wireWidth?_insert, List.forall_mem_append, List.forall_mem_singleton]
    by_cases hname : model = m.name
    · subst hname
      have hnone : ∀ other ∈ models, other.name ≠ m.name := fun other hother hsame =>
        hnew (hsame ▸ List.mem_map_of_mem hother)
      rw [if_pos rfl, ← Capacity.fits_max_one, hmodule, Capacity.fits_max_one]
      constructor
      · exact fun hfits => ⟨fun other hother hsame => absurd hsame (hnone other hother), fun _ => hfits⟩
      · exact fun hfits => hfits.2 rfl
    · rw [if_neg hname, h.widths]
      exact (and_iff_left fun hsame => absurd hsame.symm hname).symm

end Design

namespace Emit

/-- Models of distinct names are declared just where the buses of all of them can be put together. -/
theorem completesIff_declareModules {r : Run} (referenced : List String) {d : Design}
    {earlier models : List Model} (hd : d.HasBlackboxes earlier)
    (hnodup : ((earlier ++ Catalog.blackboxModels ⟨models⟩ referenced).map (·.name)).Nodup) :
    CompletesIff (declareModules referenced d models) r
      (∀ m ∈ Catalog.blackboxModels ⟨models⟩ referenced, m.Regroups)
      fun answer _ => answer.2 = none ∧
        answer.1.HasBlackboxes (earlier ++ Catalog.blackboxModels ⟨models⟩ referenced) := by
  induction models generalizing r d earlier with
  | nil =>
    exact completesIff_pure (by simp [Catalog.blackboxModels])
      ⟨rfl, by simpa [Catalog.blackboxModels] using hd⟩
  | cons m models ih =>
    have htell (es : List Event) (r : Run) : Regular (tellAll es) r := regular_of_ok rfl
    unfold declareModules
    refine (htell _ r).completesIff_bind fun _ r₁ _ => ?_
    by_cases hm : Catalog.isWanted referenced m && !Catalog.isReserved m
    · rw [Catalog.blackboxModels_cons_of_pos hm, List.append_cons] at hnodup
      rw [Catalog.blackboxModels_cons_of_pos hm, List.append_cons]
      have hnew : m.name ∉ earlier.map (·.name) := by
        rw [List.append_assoc, List.map_append, List.nodup_append] at hnodup
        exact fun h => hnodup.2.2 _ h _ List.mem_cons_self rfl
      have hfree : ¬ d.modules.contains m.name = true := by
        rwa [Ordered.contains_iff, hd.names]
      rw [if_pos hm, if_neg hfree]
      refine (htell _ r₁).completesIff_bind fun _ r₂ _ => ?_
      refine ((completesIff_demand m.answersIff_blackbox).bind fun module r₃ _ hmodule => ?_).imp
        List.forall_mem_cons.symm fun _ _ h => h
      refine (regular_modifyReport _).completesIff_bind fun _ r₄ _ => ?_
      exact ih (hd.insert hnew hmodule.2.2) hnodup
    · rw [Catalog.blackboxModels_cons_of_neg hm] at hnodup ⊢
      rw [if_neg hm]
      exact ih hd hnodup

end Emit

/-! ### Cells of primitives -/

/-- The names of bits of buses under which a primitive is bound, by base and index. -/
def Primitive.busBits (p : Primitive) : List (String × Nat) :=
  (p.inputs.map (·.port) ++ p.outputs.map (·.port)).filterMap Subscript.split?

/-- Whether the cell of a node fits memory in a design with the modules of some models, where `bits` are
the bits of buses under which it is bound. -/
structure Node.CellFits (n : Node) (bits : List (String × Nat)) (models : List Model) : Prop where
  table : Capacity.fits 1 n.kind.tablePlaces = true
  indices : n.kind.model? ≠ none → ∀ bit ∈ bits,
    Capacity.fits Capacity.signalBitBytes (bit.2 + 1) = true
  /-- The bus of a model is as wide as the model has it. -/
  callees : ∀ m ∈ models, n.kind.model? = some m.name → ∀ bit ∈ bits,
    Capacity.fits Capacity.signalBitBytes (Buses.busWidth m.busBits bit.1) = true

theorem Node.cellFits_of_model? {n : Node} {model : String} (hkind : n.kind.model? = some model)
    {d : Design} {models : List Model} (hd : d.HasBlackboxes models) (bits : List (String × Nat)) :
    n.CellFits bits models ↔
      ∀ bit ∈ bits, Capacity.fits Capacity.signalBitBytes (bit.2 + 1) = true ∧
        Capacity.fits Capacity.signalBitBytes ((d.wireWidth? model bit.1).getD 0) = true := by
  have htable : Capacity.fits 1 n.kind.tablePlaces = true := by
    cases hk : n.kind <;> rw [hk] at hkind <;> cases hkind <;> rfl
  constructor
  · intro h bit hbit
    refine ⟨h.indices (by simp [hkind]) bit hbit, (hd.widths model bit.1).mpr ?_⟩
    rintro m hm rfl
    exact h.callees m hm hkind bit hbit
  · intro h
    refine ⟨htable, fun _ bit hbit => (h bit hbit).1, ?_⟩
    intro m hm hname bit hbit
    rw [hkind, Option.some.injEq] at hname
    exact (hd.widths model bit.1).mp (h bit hbit).2 m hm hname.symm

theorem Node.cellFits_of_not_model? {n : Node} (hkind : n.kind.model? = none) (bits : List (String × Nat))
    (models : List Model) : n.CellFits bits models ↔ Capacity.fits 1 n.kind.tablePlaces = true := by
  refine ⟨fun h => h.table, fun h => ⟨h, fun hmodel => absurd hkind hmodel, ?_⟩⟩
  intro m _ hname
  rw [hkind] at hname
  cases hname

namespace Cell

variable {d : Design} {models : List Model} {n : Node} {p : Primitive}

theorem answersIff_ofKind (m : Module) (hd : d.HasBlackboxes models) (hkind : n.kind.isPrimitive)
    (htype : p.cellType = n.kind.cellType?.getD "") {inputs outputs : Signal}
    (hclocked : ∀ edge init, n.kind = .register edge init → 2 ≤ inputs.length)
    (hbits : (((p.inputs.map (·.port)).zip inputs) ++ (p.outputs.map (·.port)).zip outputs).filterMap
      (Subscript.split? ·.1) = p.busBits) :
    AnswersIff (ofKind m d n p inputs outputs) (n.CellFits p.busBits models) fun _ => True := by
  cases hmodel : n.kind.model? with
  | some model =>
    have hcellType : p.cellType = model := by
      rw [htype]
      cases hk : n.kind <;> rw [hk] at hmodel <;> cases hmodel <;> rfl
    rw [ofKind_block hmodel hcellType, n.cellFits_of_model? hmodel hd, ← hbits]
    exact answersIff_ofInstance _ _ _ _ _
  | none =>
    rw [n.cellFits_of_not_model? hmodel]
    unfold ofKind
    cases hk : n.kind with
    | lut | reduceOr | reduceAnd => exact answersIff_ok rfl trivial
    | sop width depth table =>
      dsimp only
      split
      · next h => exact answersIff_ok h trivial
      · next h => exact answersIff_overflow h
    | register edge init =>
      have htwo := hclocked edge init hk
      rcases inputs with _ | ⟨data, _ | ⟨clock, rest⟩⟩
      · exact absurd htwo (by simp)
      · exact absurd htwo (by simp)
      · exact answersIff_ok rfl trivial
    | hardBlock model | skipBlock model =>
      rw [hk] at hmodel
      cases hmodel
    | _ =>
      rw [hk] at hkind
      cases hkind

/-- The cell of a primitive of the right shape is made just where it fits memory. -/
theorem answersIff_ofPrimitive (m : Module) (hd : d.HasBlackboxes models) (hkind : n.kind.isPrimitive)
    (hshape : n.shapeError? = none) (htype : p.cellType = n.kind.cellType?.getD "")
    (hinputs : p.inputs.length = n.inputs.length) :
    AnswersIff (ofPrimitive m d n p) (n.CellFits p.busBits models) fun _ => True := by
  have hclocked : ∀ edge init, n.kind = .register edge init →
      2 ≤ (m.driverBits (p.inputs.map (·.driver))).1.length := by
    intro edge init hk
    rw [Module.driverBits_fst, List.length_map, List.length_map, hinputs]
    by_contra hfew
    have hne : n.inputs.length ≠ 2 := by omega
    simp [Node.shapeError?, hk, hne] at hshape
  have hbits :
      (((p.inputs.map (·.port)).zip (m.driverBits (p.inputs.map (·.driver))).1) ++
        (p.outputs.map (·.port)).zip (m.outputBits p.outputs).1).filterMap (Subscript.split? ·.1) =
          p.busBits := by
    rw [Module.driverBits_fst, Module.outputBits, List.map_map, List.zip_map', List.zip_map',
      Primitive.busBits, List.filterMap_append, List.filterMap_append]
    simp only [List.filterMap_map, Function.comp_def]
  exact ((answersIff_ofKind _ hd hkind htype hclocked hbits).bind fun _ _ =>
    answersIff_ok trivial trivial).imp (by simp) fun _ h => h

end Cell

end CircuitLowering
