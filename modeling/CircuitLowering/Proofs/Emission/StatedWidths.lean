import CircuitLowering.Circuit.Build
import CircuitLowering.Proofs.Bits
import CircuitLowering.Proofs.Design.Cells
import CircuitLowering.Proofs.Emission.Shapes
import CircuitLowering.Proofs.Netlist.Operations

/-!
# The widths that cells state

The cells of built-in kinds say in their parameters how wide their connections are.  The connections
gather all pins of the node, while the widths come from the content of its kind or, for a reduction, from
the size of its first ports.  Truth tables and registers are checked to have the pins that their content
asks for.  Nothing checks the ports of a reduction: it states its widths where its first ports have all
its pins, and only there (`statedWidths_of_assemble`).
-/

namespace CircuitLowering

/-- Counts up to the largest 32-bit integer can be read back. -/
theorem Param.toInt?_ofCount {count : Nat} (h : count < 2 ^ 31) :
    (ofCount count).toInt? = some (count : Int) := by
  have hcount : min count 2147483647 = count := Nat.min_eq_left (Nat.le_of_lt_succ h)
  rw [ofCount, hcount, ofInt]
  exact Bits.toInt?_ofInt (by omega) (by omega)

namespace Cell

/-! ### Ports and parameters -/

def portWidth? (c : Cell) (port : String) : Option Nat := (c.ports.get? port).map (·.signal.length)

def count? (c : Cell) (param : String) : Option Int := (c.params.get? param).bind Param.toInt?

def bitCount? (c : Cell) (param : String) : Option Nat :=
  match c.params.get? param with
  | some (.bits bits) => some bits.length
  | _ => none

/-- Whether a port is `width` bits wide and a parameter says so. -/
structure States (c : Cell) (param port : String) (width : Nat) : Prop where
  count : c.count? param = some (width : Int)
  port : c.portWidth? port = some width

/-- Whether the widths that the cell of a built-in kind states are those of its connections, and its
table has the bits that they ask for. -/
def WidthsAgree (c : Cell) : NodeKind → Prop
  | .lut _ _ =>
    ∃ width, c.States "WIDTH" "A" width ∧ c.portWidth? "Y" = some 1 ∧
      c.bitCount? "LUT" = some (2 ^ width)
  | .sop _ depth _ =>
    ∃ width, c.States "WIDTH" "A" width ∧ c.portWidth? "Y" = some 1 ∧
      c.bitCount? "TABLE" = some (2 * width * depth)
  | .register _ _ => ∀ port ∈ ["CLK", "D", "Q"], c.portWidth? port = some 1
  | .reduceOr | .reduceAnd =>
    (∃ width, c.States "A_WIDTH" "A" width) ∧ ∃ width, c.States "Y_WIDTH" "Y" width
  | _ => True

theorem count?_of_get? {c : Cell} {param : String} {count : Nat} (hcount : count < 2 ^ 31)
    (h : c.params.get? param = some (.ofCount count)) : c.count? param = some (count : Int) := by
  rw [count?, h]
  exact Param.toInt?_ofCount hcount

/-- A parameter with the width of another connection says so wherever both can be read back. -/
theorem exists_states_iff {c : Cell} {param port : String} {count width : Nat} (hcount : count ≤ width)
    (hwidth : width < 2 ^ 31) (hparam : c.params.get? param = some (.ofCount count))
    (hport : c.portWidth? port = some width) :
    (∃ width, c.States param port width) ↔ count = width := by
  have hread := count?_of_get? (Nat.lt_of_le_of_lt hcount hwidth) hparam
  constructor
  · rintro ⟨other, hstated, hother⟩
    rw [hport, Option.some.injEq] at hother
    rw [hread, Option.some.injEq, ← hother] at hstated
    exact Int.ofNat_inj.mp hstated
  · rintro rfl
    exact ⟨count, hread, hport⟩

/-! ### Cells of built-in kinds -/

variable {m : Module} {d : Design} {n : Node} {p : Primitive} {inputs outputs : Signal}
  {result : Cell × Module}

/-- The widths of a truth table are those of its content. -/
theorem widthsAgree_of_table (hinputs : inputs.length < 2 ^ 31) (houtputs : outputs.length = 1)
    (htable : (∃ mask, n.kind = .lut inputs.length mask) ∨
      ∃ depth table, n.kind = .sop inputs.length depth table)
    (h : ofKind m d n p inputs outputs = .ok result) : result.1.WidthsAgree n.kind := by
  unfold ofKind at h
  rcases htable with ⟨mask, hkind⟩ | ⟨depth, table, hkind⟩
  · rw [hkind] at h ⊢
    cases h
    refine ⟨inputs.length, ⟨count?_of_get? hinputs rfl, rfl⟩, congrArg some houtputs, ?_⟩
    exact congrArg some (Bits.length_resize _ _)
  · rw [hkind] at h ⊢
    dsimp only at h
    split at h
    · cases h
      refine ⟨inputs.length, ⟨count?_of_get? hinputs rfl, rfl⟩, congrArg some houtputs, ?_⟩
      exact congrArg some (Bits.length_resize _ _)
    · cases h

theorem widthsAgree_of_register {edge : ClockEdge} {init : InitValue} (houtputs : outputs.length = 1)
    (hkind : n.kind = .register edge init) (h : ofKind m d n p inputs outputs = .ok result) :
    result.1.WidthsAgree n.kind := by
  unfold ofKind at h
  rw [hkind] at h ⊢
  rcases inputs with _ | ⟨data, _ | ⟨clock, rest⟩⟩
  · cases h
  · cases h
  · cases h
    intro port hport
    simp only [List.mem_cons, List.not_mem_nil, or_false] at hport
    rcases hport with rfl | rfl | rfl
    · rfl
    · rfl
    · exact congrArg some houtputs

/-- A reduction states its widths where its first ports have all its pins. -/
theorem widthsAgree_iff_of_reduction (hkind : n.kind.reductionType?.isSome)
    (hinputs : inputs.length < 2 ^ 31) (houtputs : outputs.length < 2 ^ 31)
    (hfirst : n.firstInputSize ≤ inputs.length) (hfirst' : n.firstOutputSize ≤ outputs.length)
    (h : ofKind m d n p inputs outputs = .ok result) :
    result.1.WidthsAgree n.kind ↔
      n.firstInputSize = inputs.length ∧ n.firstOutputSize = outputs.length := by
  unfold ofKind at h
  cases hk : n.kind with
  | reduceOr | reduceAnd =>
    rw [hk] at h
    cases h
    exact and_congr (exists_states_iff hfirst hinputs rfl rfl)
      (exists_states_iff hfirst' houtputs rfl rfl)
  | _ =>
    rw [hk] at hkind
    cases hkind

/-- A cell of a built-in kind is made where its table fits memory. -/
theorem exists_ofKind_iff (hprimitive : n.kind.isPrimitive) (hbuiltIn : n.kind.model? = none)
    (hshape : n.shapeError? = none) (hinputs : inputs.length = n.inputs.length) :
    (∃ cell m', ofKind m d n p inputs outputs = .ok (cell, m')) ↔
      ∀ width depth table, n.kind = .sop width depth table →
        Capacity.fits 1 (2 * width * depth) = true := by
  unfold ofKind
  cases hkind : n.kind with
  | lut | reduceOr | reduceAnd => exact iff_of_true ⟨_, _, rfl⟩ nofun
  | sop width depth table =>
    dsimp only
    split
    · next hfits =>
      apply iff_of_true ⟨_, _, rfl⟩
      rintro _ _ _ ⟨⟩
      exact hfits
    · next hfits =>
      apply iff_of_false
      · rintro ⟨cell, m', h⟩
        cases h
      · intro h
        exact hfits (h width depth table rfl)
  | register edge init =>
    rw [((Node.shapeError?_register_eq_none_iff hkind).mp hshape).1] at hinputs
    obtain ⟨data, clock, rfl⟩ := List.length_eq_two.mp hinputs
    exact iff_of_true ⟨_, _, rfl⟩ nofun
  | hardBlock | skipBlock =>
    rw [hkind] at hbuiltIn
    cases hbuiltIn
  | _ =>
    rw [hkind] at hprimitive
    cases hprimitive

/-- The cell of a node of the right shape agrees with its connections, unless it is that of a reduction
with pins in other ports than the first ones. -/
theorem widthsAgree_iff (hprimitive : n.kind.isPrimitive) (hshape : n.shapeError? = none)
    (hinputs : inputs.length = n.inputs.length) (houtputs : outputs.length = n.outputs.length)
    (hnarrow : n.inputs.length < 2 ^ 31) (hnarrow' : n.outputs.length < 2 ^ 31)
    (hfirst : n.firstInputSize ≤ n.inputs.length) (hfirst' : n.firstOutputSize ≤ n.outputs.length)
    (h : ofKind m d n p inputs outputs = .ok result) :
    result.1.WidthsAgree n.kind ↔
      (n.kind.reductionType?.isSome →
        n.firstInputSize = n.inputs.length ∧ n.firstOutputSize = n.outputs.length) := by
  rw [← hinputs] at hnarrow hfirst ⊢
  rw [← houtputs] at hnarrow' hfirst' ⊢
  cases hkind : n.kind with
  | lut width mask =>
    obtain ⟨-, hwidth, hone⟩ := (Node.shapeError?_lut_eq_none_iff hkind).mp hshape
    rw [← hwidth, ← hinputs] at hkind
    apply iff_of_true
    · rw [← hwidth, ← hinputs, ← hkind]
      exact widthsAgree_of_table hnarrow (houtputs.trans hone) (.inl ⟨mask, hkind⟩) h
    · nofun
  | sop width depth table =>
    obtain ⟨hwidth, hone⟩ := (Node.shapeError?_sop_eq_none_iff hkind).mp hshape
    rw [← hwidth, ← hinputs] at hkind
    apply iff_of_true
    · rw [← hwidth, ← hinputs, ← hkind]
      exact widthsAgree_of_table hnarrow (houtputs.trans hone) (.inr ⟨depth, table, hkind⟩) h
    · nofun
  | register edge init =>
    obtain ⟨-, hone⟩ := (Node.shapeError?_register_eq_none_iff hkind).mp hshape
    apply iff_of_true
    · rw [← hkind]
      exact widthsAgree_of_register (houtputs.trans hone) hkind h
    · nofun
  | reduceOr | reduceAnd =>
    have hreduction : n.kind.reductionType?.isSome := by
      rw [hkind]
      rfl
    rw [← hkind, widthsAgree_iff_of_reduction hreduction hnarrow hnarrow' hfirst hfirst' h]
    exact (imp_iff_right hreduction).symm
  | hardBlock | skipBlock => exact iff_of_true trivial nofun
  | _ =>
    rw [hkind] at hprimitive
    cases hprimitive

end Cell

/-! ### Cells of assembled nodes -/

/-- The first port has no more pins than all ports. -/
theorem headD_le_sum (sizes : List Nat) : sizes.headD 0 ≤ sizes.sum := by
  cases sizes with
  | nil => exact Nat.le_refl 0
  | cons size sizes => exact Nat.le_add_right size sizes.sum

section Assembled

variable {id : NodeId} {r r' : Run} {n : Node} {p : Primitive}

/-- The connections of a primitive gather all pins of its node. -/
theorem length_signals_of_assemble (hn : r.netlist.nodes[id]? = some n)
    (hinputs : n.inputs.length = n.inputSizes.sum) (houtputs : n.outputs.length = n.outputSizes.sum)
    (hassemble : Emit.assemble id r = .ok p r') :
    p.inputSignal.length = n.inputs.length ∧ p.outputSignal.length = n.outputs.length := by
  obtain ⟨-, -, hinputSlots, houtputSlots⟩ := Emit.bound_of_assemble hn hinputs hassemble
  constructor
  · rw [Primitive.inputSignal, ← Node.map_pin_inputSlots hinputs, ← hinputSlots]
    simp only [List.length_map]
  · rw [Primitive.outputSignal, ← Node.map_pin_outputSlots houtputs, ← houtputSlots]
    simp only [List.length_map]

/-- The cell of a primitive without parameters of its own states the widths of its connections, unless it
is a reduction with pins in other ports than the first ones.  The cell of a built-in kind is made wherever
its table fits memory.

That the node has as many pins as its ports have room for holds in every cross-referenced netlist. -/
theorem statedWidths_of_assemble (hn : r.netlist.nodes[id]? = some n) (hprimitive : n.kind.isPrimitive)
    (hparams : n.params.entries = []) (hinputs : n.inputs.length = n.inputSizes.sum)
    (houtputs : n.outputs.length = n.outputSizes.sum) (hassemble : Emit.assemble id r = .ok p r')
    (hnarrow : n.inputs.length < 2 ^ 31) (hnarrow' : n.outputs.length < 2 ^ 31)
    (m : Module) (d : Design) :
    (n.kind.model? = none →
      ((∃ cell m', Cell.ofPrimitive m d n p = .ok (cell, m')) ↔
        ∀ width depth table, n.kind = .sop width depth table →
          Capacity.fits 1 (2 * width * depth) = true)) ∧
    ∀ cell m', Cell.ofPrimitive m d n p = .ok (cell, m') →
      (cell.WidthsAgree n.kind ↔
        (n.kind.reductionType?.isSome →
          n.firstInputSize = n.inputs.length ∧ n.firstOutputSize = n.outputs.length)) := by
  obtain ⟨hshape, -⟩ := Emit.bound_of_assemble hn hinputs hassemble
  obtain ⟨hA, hY⟩ := length_signals_of_assemble hn hinputs houtputs hassemble
  have hplain : Cell.ofPrimitive m d n p =
      Cell.ofKind (m.addWires p.wireNames) d n p p.inputSignal p.outputSignal := by
    rw [Cell.ofPrimitive_eq, hparams]
    exact id_map _
  rw [hplain]
  constructor
  · intro hbuiltIn
    exact Cell.exists_ofKind_iff hprimitive hbuiltIn hshape hA
  · intro cell m' h
    exact Cell.widthsAgree_iff hprimitive hshape hA hY hnarrow hnarrow'
      (hinputs ▸ headD_le_sum n.inputSizes) (houtputs ▸ headD_le_sum n.outputSizes) h

end Assembled

/-- Two reductions of the same signals, one with two ports of one pin and one with one port of two. -/
def reductionDescription : CircuitDescription where
  inputs := ["a", "b"]
  nodes := [
    { name := "u", kind := .reduceOr,
      inputs := [{ mapping := "A", nets := [some "a"] }, { mapping := "B", nets := [some "b"] }],
      outputs := [{ mapping := "Y", nets := [none] }] },
    { name := "v", kind := .reduceAnd,
      inputs := [{ mapping := "A", nets := [some "a", some "b"] }],
      outputs := [{ mapping := "Y", nets := [none] }] }]

def reductionCircuit : Circuit := reductionDescription.build.toOption.getD ⟨none, {}, {}⟩

def reductionRun : Run := { netlist := reductionCircuit.netlist.instantiateAll 1 }

theorem statedWidths_reductionRun :
    ∃ n p r' cell m,
      reductionRun.netlist.nodes[6]? = some n ∧ n.kind = .reduceAnd ∧ n.params.names = [] ∧
      n.inputs.length = n.inputSizes.sum ∧ n.outputs.length = n.outputSizes.sum ∧
      Emit.assemble 6 reductionRun = .ok p r' ∧
      Cell.ofPrimitive {} {} n p = .ok (cell, m) ∧ cell.WidthsAgree .reduceAnd := by
  have hnode : reductionRun.netlist.nodes[6]?.map (fun n => (n.kind, n.params.names,
      (n.inputs.length, n.inputSizes), n.outputs.length, n.outputSizes)) =
        some (.reduceAnd, [], (2, [2]), 1, [1]) := by decide +kernel
  have hassembled : Emit.succeeds (Emit.assemble 6) reductionRun = true := by decide +kernel
  obtain ⟨n, hn, hfields⟩ := Option.map_eq_some_iff.mp hnode
  obtain ⟨p, r', hp⟩ := Emit.succeeds_iff.mp hassembled
  simp only [Prod.mk.injEq] at hfields
  obtain ⟨hkind, hparams, ⟨hinputs, hinputSizes⟩, houtputs, houtputSizes⟩ := hfields
  have hsized : n.inputs.length = n.inputSizes.sum := by rw [hinputs, hinputSizes]; rfl
  have hsized' : n.outputs.length = n.outputSizes.sum := by rw [houtputs, houtputSizes]; rfl
  obtain ⟨hmade, hwidths⟩ := statedWidths_of_assemble hn (by rw [hkind]; rfl)
    (List.map_eq_nil_iff.mp hparams) hsized hsized' hp (by rw [hinputs]; decide)
    (by rw [houtputs]; decide) {} {}
  rw [hkind] at hmade hwidths
  obtain ⟨cell, m, hcell⟩ := (hmade rfl).mpr nofun
  refine ⟨n, p, r', cell, m, hn, hkind, hparams, hsized, hsized', hp, hcell, ?_⟩
  rw [hwidths cell m hcell, Node.firstInputSize, Node.firstOutputSize, hinputs, hinputSizes, houtputs,
    houtputSizes]
  exact fun _ => ⟨rfl, rfl⟩

/-- In the design the first of the reductions states the width of its first port, while its connection has
the pins of both. -/
theorem width_mismatch_reductionCircuit :
    reductionDescription.build = .ok reductionCircuit ∧
      ∃ design r', Emit.buildDesign (.new reductionCircuit.catalog {})
          { netlist := reductionCircuit.netlist } = .ok design r' ∧
        ∃ cell, (design.module? "top").bind (·.cells.get? "u") = some cell ∧
          cell.type = "$reduce_or" ∧ cell.portWidth? "A" = some 2 ∧ cell.count? "A_WIDTH" = some 1 ∧
          ¬ cell.WidthsAgree .reduceOr := by
  refine ⟨eq_ok_getD (by decide +kernel) _, ?_⟩
  have hbuilt : (Emit.answer (Emit.buildDesign (.new reductionCircuit.catalog {}))
      { netlist := reductionCircuit.netlist }).toOption.map (fun design =>
        ((design.module? "top").bind (·.cells.get? "u")).map fun cell =>
          (cell.type, cell.portWidth? "A", cell.count? "A_WIDTH")) =
        some (some ("$reduce_or", some 2, some 1)) := by decide +kernel
  obtain ⟨design, r', hdesign, hcell⟩ := Emit.exists_of_answer hbuilt
  obtain ⟨cell, hcell, hfields⟩ := Option.map_eq_some_iff.mp hcell
  simp only [Prod.mk.injEq] at hfields
  obtain ⟨htype, hport, hcount⟩ := hfields
  refine ⟨design, r', hdesign, cell, hcell, htype, hport, hcount, ?_⟩
  rintro ⟨⟨width, hstated, hwidth⟩, -⟩
  rw [hport, Option.some.injEq] at hwidth
  rw [hcount, ← hwidth] at hstated
  exact absurd hstated (by decide)

end CircuitLowering
