import CircuitLowering.Proofs.Blif.Enumeration
import CircuitLowering.Proofs.Emission.Regular
import CircuitLowering.Proofs.Emission.Shapes
import Mathlib.Data.List.Basic

/-!
# Nodes that come to an answer

Writing a primitive relies on promises: that there are pins in its first ports, that its pins and
their owners exist, and that the rows of its table fit memory.  In a wired netlist all but the first
and the last are kept, so that a primitive with first ports gets its statement or leads to an error of
the circuit (`Emit.emitBlif_returns`).
-/

namespace CircuitLowering

open Netlist

def Node.TableFits (n : Node) : Prop :=
  ∀ width depth table, n.kind = .sop width depth table → Blif.sopFits width depth

/-- Whether `P` covers the ways in which a node that is written can fail by itself: it has no pins in its
first ports, or its table has too many rows. -/
structure Node.CoveredBy (n : Node) (P : Failure → Prop) : Prop where
  input : n.kind.isPrimitive → n.firstInputSize = 0 → P (.violated .firstInputPort)
  output : n.kind.isPrimitive → n.firstOutputSize = 0 → P (.violated .firstOutputPort)
  table : n.kind.isPrimitive → ¬ n.TableFits → P (.fault .overflow)

theorem Blif.exists_statement {n : Node} {p : Primitive} (hshape : n.shapeError? = none)
    (hinputs : p.inputs.length = n.inputs.length) (hfits : n.TableFits) (showParams : Bool) :
    ∃ text, statement n p showParams = .ok text := by
  have hlines : ∃ ls, primitiveLines n p showParams = .ok ls := by
    unfold primitiveLines
    cases hkind : n.kind with
    | lut width mask =>
      have hwidth := ((Node.shapeError?_lut_eq_none_iff hkind).mp hshape).1
      dsimp only
      rw [lutRowsChecked_eq_ok (hwidth.trans (by decide))]
      exact ⟨_, rfl⟩
    | sop width depth table =>
      dsimp only
      rw [sopRowsChecked, if_pos (hfits width depth table hkind)]
      exact ⟨_, rfl⟩
    | register edge init =>
      -- a register of the right shape has an input for the data and one for the clock
      have htwo : p.inputNames.length = 2 := by
        rw [Primitive.inputNames, List.length_map, hinputs]
        by_contra hne
        simp [Node.shapeError?, hkind, hne] at hshape
      obtain ⟨data, clock, hnames⟩ := List.length_eq_two.mp htwo
      rw [hnames]
      exact ⟨_, rfl⟩
    | _ => exact ⟨_, rfl⟩
  obtain ⟨ls, hls⟩ := hlines
  rw [statement, hls]
  exact ⟨_, rfl⟩

theorem Blif.statement_eq_error {n : Node} {p : Primitive} (hshape : n.shapeError? = none)
    (hinputs : p.inputs.length = n.inputs.length) {showParams : Bool} {f : Fault}
    (h : statement n p showParams = .error f) : ¬ n.TableFits ∧ f = .overflow := by
  have hfits : ¬ n.TableFits := by
    intro hfits
    obtain ⟨text, htext⟩ := exists_statement hshape hinputs hfits showParams
    cases h.symm.trans htext
  refine ⟨hfits, ?_⟩
  simp only [Node.TableFits, not_forall] at hfits
  obtain ⟨width, depth, table, hkind, hmany⟩ := hfits
  rw [statement, primitiveLines, hkind] at h
  dsimp only at h
  rw [sopRowsChecked, if_neg hmany] at h
  cases h
  rfl

namespace Emit

variable {r : Run}

/-! ### Binding pins -/

theorem regular_require_bind {α : Type} {i : Invariant} {holds : Bool} {f : Unit → Emit α}
    (h : holds = true) (hf : Regular (f ()) r) : Regular (require i holds >>= f) r := by
  subst h
  exact hf

theorem regular_bindingName {slot : Slot} {p : Pin} (hp : r.netlist.pins[slot.pin]? = some p) :
    Regular (bindingName slot) r :=
  regular_ask_bind (pin_eq_ok_iff.mpr hp) (regular_pure _)

theorem regular_bindInputs {k : NodeId} {n : Node} (hnl : r.netlist.Wired)
    (hn : r.netlist.nodes[k]? = some n) {slots : List Slot}
    (hslots : ∀ slot ∈ slots, slot.pin ∈ n.inputs) : Regular (bindInputs slots) r := by
  induction slots generalizing r with
  | nil => exact regular_pure []
  | cons slot slots ih =>
    obtain ⟨p, hp, -, hinput⟩ := hnl.pin_of_mem .input hn (hslots slot List.mem_cons_self)
    apply (regular_bindingName hp).bind
    intro port s hport
    obtain ⟨-, -, rfl⟩ := (bindingName_reads slot).of_ok hport
    apply (regular_resolve hnl hp hinput).bind
    intro d t hd
    obtain ⟨-, ht, -⟩ := (resolve_ends slot.pin).of_ok hd
    apply Regular.bind
    · apply ih
      · exact ht.netlist ▸ hnl.tieAll _
      · exact ht.nodes ▸ hn
      · exact fun slot' hslot' => hslots slot' (List.mem_cons_of_mem _ hslot')
    · exact fun _ _ _ => regular_pure _

theorem regular_bindOutputs {k : NodeId} {n : Node} (hnl : r.netlist.CrossReferenced)
    (hn : r.netlist.nodes[k]? = some n) {slots : List Slot}
    (hslots : ∀ slot ∈ slots, slot.pin ∈ n.outputs) : Regular (bindOutputs slots) r := by
  induction slots with
  | nil => exact regular_pure []
  | cons slot slots ih =>
    obtain ⟨p, hp, -, -⟩ := hnl.pin_of_mem .output hn (hslots slot List.mem_cons_self)
    obtain ⟨label, hlabel⟩ := hnl.exists_pinLabel hp
    apply (regular_bindingName hp).bind
    intro port s hport
    obtain ⟨-, -, rfl⟩ := (bindingName_reads slot).of_ok hport
    refine regular_ask_bind hlabel (Regular.bind ?_ fun _ _ _ => regular_pure _)
    exact ih fun slot' hslot' => hslots slot' (List.mem_cons_of_mem _ hslot')

theorem regular_assemble {id : NodeId} {n : Node} (hnl : r.netlist.Wired)
    (hn : r.netlist.nodes[id]? = some n) (hinput : 0 < n.firstInputSize)
    (houtput : 0 < n.firstOutputSize) : Regular (assemble id) r := by
  unfold assemble
  refine regular_ask_bind (node_eq_ok_iff.mpr hn) ?_
  refine regular_require_bind (decide_eq_true hinput) ?_
  refine regular_require_bind (decide_eq_true houtput) ?_
  cases n.shapeError? with
  | some reason =>
    refine (regular_fail _).bind ?_
    intro _ s hs
    exact nomatch hs
  | none =>
    refine (regular_tell _).bind ?_
    intro _ s hs
    have hnetlist : s.netlist = r.netlist := by
      cases hs
      rfl
    rw [← hnetlist] at hnl hn
    apply (regular_bindInputs hnl hn fun _ => Node.pin_mem_inputs).bind
    intro inputs s hinputs
    obtain ⟨-, hs, -⟩ := (bindInputs_reads n.inputSlots).of_ok hinputs
    apply Regular.bind
    · refine regular_bindOutputs (k := id) ?_ ?_ fun slot hslot => Node.pin_mem_outputs hslot
      · rw [hs.netlist]
        exact (hnl.tieAll _).toCrossReferenced
      · exact hs.nodes ▸ hn
    · exact fun _ _ _ => regular_pure _

/-! ### One node -/

theorem instantiate_eq_ok {id : NodeId} {n : Node} {mark : UInt16}
    (hn : r.netlist.nodes[id]? = some n) (h : r.netlist.InstantiatedAt mark id) :
    instantiate id mark r = .ok () r := by
  change EStateM.bind (discard (ask (·.node id))) _ r = _
  have hdiscard : (discard (ask (·.node id)) : Emit PUnit) r = .ok () r := by
    change EStateM.bind (ask (·.node id)) _ r = _
    unfold EStateM.bind
    rw [ask_eq_ok (node_eq_ok_iff.mpr hn)]
  unfold EStateM.bind
  rw [hdiscard]
  exact congrArg (fun netlist => EStateM.Result.ok () { r with netlist }) h.instantiate_eq

theorem regular_countEmitted (c : Context) (n : Node) : Regular (countEmitted c n) r := by
  obtain ⟨_, hcount⟩ := countEmitted_eq_ok c n r
  exact regular_of_ok hcount

theorem regular_skip (n : Node) : Regular (skip n) r := by
  unfold skip
  split
  · exact (regular_tell _).bind fun _ _ _ => regular_modifyReport _
  · exact regular_modifyReport _

def Returns {α : Type} (x : Emit (Option α)) (r : Run) : Prop :=
  (∃ a, answer x r = .ok (some a)) ∨ ∃ e, answer x r = .error (.error e)

/-- Assembling a primitive stops with an error of the circuit, or at a first port that has no pins. -/
theorem stops_assemble {P : Failure → Prop} {id : NodeId} {n : Node} (hnl : r.netlist.Wired)
    (hn : r.netlist.nodes[id]? = some n) (hP : ∀ e, P (.error e))
    (hinput : n.firstInputSize = 0 → P (.violated .firstInputPort))
    (houtput : n.firstOutputSize = 0 → P (.violated .firstOutputPort)) :
    Stops P (assemble id) r := by
  by_cases hsizes : 0 < n.firstInputSize ∧ 0 < n.firstOutputSize
  · exact (regular_assemble hnl hn hsizes.1 hsizes.2).stops hP
  · unfold assemble
    refine stops_ask_bind (node_eq_ok_iff.mpr hn) ((stops_require ?_).bind fun _ s hs => ?_)
    · simpa using hinput
    refine (stops_require ?_).bind fun _ s' hs' => ?_
    · simpa using houtput
    · -- both checks were passed, so that both ports have pins
      refine absurd ⟨?_, ?_⟩ hsizes
      · by_contra hzero
        rw [decide_eq_false hzero] at hs
        cases hs
      · by_contra hzero
        rw [decide_eq_false hzero] at hs'
        cases hs'

/-- A primitive that was assembled has the pins that its kind asks for, and all its inputs are bound. -/
theorem shape_of_assemble {id : NodeId} {n : Node} {p : Primitive} {s : Run}
    (hn : r.netlist.nodes[id]? = some n) (hsized : n.inputs.length = n.inputSizes.sum)
    (h : assemble id r = .ok p s) :
    n.shapeError? = none ∧ p.inputs.length = n.inputs.length := by
  obtain ⟨hshape, -, hslots, -⟩ := bound_of_assemble hn hsized h
  refine ⟨hshape, ?_⟩
  rw [← Node.map_pin_inputSlots hsized, List.length_map, ← hslots, List.length_map]

/-- A node comes to its statement, or stops with an error of the circuit, at a first port that has no
pins, or where the rows of its table do not fit memory. -/
theorem stops_emitBlif {P : Failure → Prop} (c : Context) {id : NodeId} {n : Node}
    (hnl : r.netlist.Wired) (hprepared : r.netlist.Prepared c.config.traversalMark)
    (hn : r.netlist.nodes[id]? = some n) (hP : ∀ e, P (.error e)) (hcovered : n.CoveredBy P) :
    Stops P (emitBlif c id) r := by
  unfold emitBlif
  refine stops_ask_bind (node_eq_ok_iff.mpr hn) ?_
  by_cases hkind : n.kind.isPrimitive
  · rw [if_pos hkind]
    have hinstantiate := instantiate_eq_ok hn (hprepared.instantiated id n hn hkind)
    refine ((regular_of_ok hinstantiate).stops hP).bind ?_
    intro _ s hs
    cases hinstantiate.symm.trans hs
    refine (stops_assemble hnl hn hP (hcovered.input hkind) (hcovered.output hkind)).bind ?_
    intro p s hp
    obtain ⟨hshape, hlength⟩ := shape_of_assemble hn (hprepared.sized id n hn) hp
    refine (stops_demand ?_).bind fun _ s _ => ?_
    · intro f hf
      have hoverflow : ¬ n.TableFits ∧ f = .overflow :=
        Blif.statement_eq_error hshape hlength hf
      rw [hoverflow.2]
      exact hcovered.table hkind hoverflow.1
    · exact ((regular_countEmitted c n).bind fun _ _ _ => regular_pure _).stops hP
  · rw [if_neg hkind]
    exact ((regular_skip n).bind fun _ _ _ => regular_pure _).stops hP

/-- A primitive with pins in its first ports gets a statement or leads to an error of the circuit. -/
theorem emitBlif_returns (c : Context) {id : NodeId} {n : Node} (hnl : r.netlist.Wired)
    (hprepared : r.netlist.Prepared c.config.traversalMark) (hn : r.netlist.nodes[id]? = some n)
    (hkind : n.kind.isPrimitive) (hinput : 0 < n.firstInputSize) (houtput : 0 < n.firstOutputSize)
    (hfits : n.TableFits) : Returns (emitBlif c id) r := by
  have hregular : Regular (emitBlif c id) r := by
    refine stops_emitBlif c hnl hprepared hn (fun e => ⟨e, rfl⟩) ?_
    constructor
    · exact fun _ hzero => absurd hzero (Nat.ne_of_gt hinput)
    · exact fun _ hzero => absurd hzero (Nat.ne_of_gt houtput)
    · exact fun _ hmany => absurd hfits hmany
  have hsome : Ends (emitBlif c id) r (fun a _ => ∃ text, a = some text) fun _ _ => True := by
    unfold emitBlif
    refine Ends.bind (ends_ask fun n' hn' => ?_)
    cases hn.symm.trans (node_eq_ok_iff.mp hn')
    rw [if_pos hkind]
    refine ends_bind_any fun _ _ => ends_bind_any fun _ _ => ends_bind_any fun text _ => ?_
    exact ends_bind_any fun _ _ => ends_pure ⟨text, rfl⟩
  unfold Returns answer
  cases h : emitBlif c id r with
  | ok a s =>
    obtain ⟨text, rfl⟩ := hsome.of_ok h
    exact Or.inl ⟨text, rfl⟩
  | error f s =>
    obtain ⟨e, rfl⟩ := hregular f s h
    exact Or.inr ⟨e, rfl⟩

end Emit

end CircuitLowering
