import CircuitLowering.Proofs.Blif.Products
import CircuitLowering.Proofs.Blif.Texts
import CircuitLowering.Proofs.Design.Cells
import CircuitLowering.Proofs.Emission.Shapes
import CircuitLowering.Proofs.Netlist.Operations

/-!
# Sums of products in both forms

The statement of a sum of products lists the inputs from the first to the last above one row for each
product; its cell lists them in the same order beside the table, which is cut or extended to one pair of
bits for each input of each product.  Both give the same rows, and the cover is one where some product
of the node's own table holds (`sumOfProducts_forms_agree`), whatever the length of the table and whatever
else than zero and one stands in it.  The number of products is only stated, so a sum can have more rows
than memory holds, and then it has no statement.
-/

namespace CircuitLowering

section Forms

variable {id : NodeId} {r r' : Run} {n : Node} {width depth : Nat} {table : List Bit} {p : Primitive}

/-- A sum of products that is assembled has as many inputs as its width says, bound in the order of its
pins. -/
theorem assemble_sop (hn : r.netlist.nodes[id]? = some n) (hkind : n.kind = .sop width depth table)
    (hsized : n.inputs.length = n.inputSizes.sum) (hassemble : Emit.assemble id r = .ok p r') :
    (n.inputs.length = width ∧ n.outputs.length = 1) ∧
      p.cellType = "$sop" ∧ p.inputs.map (·.slot.pin) = n.inputs ∧
        p.outputs.map (·.name) = [p.outputName] := by
  obtain ⟨hshape, htype, hinputs, houtputs⟩ := Emit.bound_of_assemble hn hsized hassemble
  have hfits := (Node.shapeError?_sop_eq_none_iff hkind).1 hshape
  refine ⟨hfits, ?_, ?_, Emit.outputs_of_assemble hn hfits.2 houtputs hassemble⟩
  · rw [htype, hkind]
    rfl
  · rw [← Node.map_pin_inputSlots hsized, ← hinputs, List.map_map]
    rfl

/-- The statement of a sum of products is its cover. -/
theorem statement_sop (hkind : n.kind = .sop width depth table) (showParams : Bool) :
    Blif.statement n p showParams =
      if Blif.sopFits width depth then
        .ok (Blif.coverText p.inputNames p.outputName (Blif.sopRows width depth table))
      else .error .overflow := by
  unfold Blif.statement Blif.primitiveLines
  rw [hkind, ← Blif.lines_namesBlock]
  dsimp only
  unfold Blif.sopRowsChecked
  split <;> rfl

/-- The cell of a sum of products: its inputs in the order of the pins, and its table made to fit. -/
theorem ofPrimitive_sop (hkind : n.kind = .sop width depth table)
    (hparams : n.params.get? "TABLE" = none) (m : Module) (d : Design) :
    ((∃ cell m', Cell.ofPrimitive m d n p = .ok (cell, m')) ↔
      Capacity.fits 1 (2 * width * depth) = true) ∧
    ∀ cell m', Cell.ofPrimitive m d n p = .ok (cell, m') →
      cell.type = p.cellType ∧ cell.ports.get? "A" = some ⟨p.inputSignal, .input⟩ ∧
        cell.params.get? "TABLE" = some (.bits (Bits.resize (2 * width * depth) table)) := by
  rw [Cell.ofPrimitive_eq]
  unfold Cell.ofKind
  rw [hkind]
  dsimp only
  split
  · next hfits =>
    constructor
    · exact iff_of_true ⟨_, _, rfl⟩ hfits
    · intro cell m' h
      cases h
      refine ⟨?_, ?_, ?_⟩
      · rw [Cell.type_setParams]
        rfl
      · rw [Cell.ports_setParams]
        rfl
      · rw [Cell.get?_params_setParams _ hparams]
        rfl
  · next hfits =>
    constructor
    · apply iff_of_false _ hfits
      rintro ⟨cell, m', h⟩
      cases h
    · intro cell m' h
      cases h

/-- Both forms of a sum of products have the rows of its table.  The columns of the cover stand from left
to right below the inputs in the order of the pins, one row for each product in the order of the products,
and the cover is one just where some product holds.  The cell takes the inputs in the same order, and its
own table, with one pair of bits for each input of each product, has the same rows.

The statement is made where its rows fit memory, the cell where its table does.  That the node has as many
pins as its ports have room for holds in every cross-referenced netlist. -/
theorem sumOfProducts_forms_agree (hn : r.netlist.nodes[id]? = some n)
    (hkind : n.kind = .sop width depth table) (hsized : n.inputs.length = n.inputSizes.sum)
    (hplaces : 2 * width * depth < UInt64.size) (hparams : n.params.get? "TABLE" = none)
    (hassemble : Emit.assemble id r = .ok p r') :
    (n.inputs.length = width ∧ n.outputs.length = 1) ∧
    p.inputs.map (·.slot.pin) = n.inputs ∧
    ∃ output rows, p.outputs.map (·.name) = [output] ∧
      rows = (List.range depth).map (Blif.productRow width table) ∧
      (∀ row ∈ rows, Blif.IsRow width row) ∧
      (∀ showParams, Blif.statement n p showParams =
        if 24 * depth ≤ 2 ^ 63 - 1 ∧ (depth = 0 ∨ width < 2 ^ 62) then
          .ok (Blif.coverText (p.inputs.map (·.driver.name)) output rows)
        else .error .overflow) ∧
      (∀ values : List Bool, values.length = width →
        (Blif.coverValue rows values = true ↔
          ∃ t < depth, Bits.ProductHolds width table t values)) ∧
      ∀ (m : Module) (d : Design),
        ((∃ cell m', Cell.ofPrimitive m d n p = .ok (cell, m')) ↔ 2 * width * depth ≤ 2 ^ 63 - 1) ∧
        ∀ cell m', Cell.ofPrimitive m d n p = .ok (cell, m') →
          cell.type = "$sop" ∧ cell.ports.get? "A" = some ⟨p.inputs.map (·.driver.bit), .input⟩ ∧
          ∃ table', cell.params.get? "TABLE" = some (.bits table') ∧
            table'.length = 2 * width * depth ∧
            (List.range depth).map (Blif.productRow width table') = rows := by
  obtain ⟨hshape, htype, hpins, houtput⟩ := assemble_sop hn hkind hsized hassemble
  refine ⟨hshape, hpins, _, _, houtput, rfl, ?_, ?_, ?_, ?_⟩
  · intro row hrow
    obtain ⟨t, -, rfl⟩ := List.mem_map.mp hrow
    exact Blif.isRow_productRow width table t
  · intro showParams
    rw [← Blif.sopRows_eq, statement_sop hkind]
    exact if_congr (Blif.sopFits_iff hplaces) rfl rfl
  · intro values hvalues
    subst hvalues
    rw [← Blif.sopRows_eq]
    exact Blif.coverValue_sopRows values depth table
  · intro m d
    obtain ⟨hmade, hparts⟩ := ofPrimitive_sop (p := p) hkind hparams m d
    have hbytes : Capacity.fits 1 (2 * width * depth) = true ↔ 2 * width * depth ≤ 2 ^ 63 - 1 := by
      rw [Capacity.fits_iff, Nat.one_mul]
      rfl
    refine ⟨hmade.trans hbytes, ?_⟩
    intro cell m' hcell
    obtain ⟨hcellType, hports, htable⟩ := hparts cell m' hcell
    refine ⟨hcellType.trans htype, hports, _, htable, Bits.length_resize _ _, ?_⟩
    rw [← Blif.sopRows_eq, ← Blif.sopRows_eq, Blif.sopRows_resize]

end Forms

/-- A sum of two products with its inputs over two ports and a table that ends within the second product
and is not defined throughout. -/
def termOperations : List Operation := [
  .addTopInput "a",
  .addTopInput "b",
  .addNode "u" (.sop 3 2 [.zero, .one, .one, .zero, .unknown, .zero, .one, .zero]),
  .addPort 5 "A" 2 .input,
  .addPort 5 "B" 1 .input,
  .addPort 5 "Y" 1 .output,
  .connectSink 3 5,
  .connectSink 4 6,
  .connectSink 3 7]

def termRun : Run := { netlist := (Operation.run Netlist.initial termOperations).toOption.getD {} }

theorem sumOfProducts_forms_agree_termRun :
    ∃ n p r' rows,
      termRun.netlist.nodes[5]? = some n ∧
      n.kind = .sop 3 2 [.zero, .one, .one, .zero, .unknown, .zero, .one, .zero] ∧
      n.inputs.length = n.inputSizes.sum ∧ 2 * 3 * 2 < UInt64.size ∧ n.params.get? "TABLE" = none ∧
      Emit.assemble 5 termRun = .ok p r' ∧
      Blif.statement n p false = .ok ".names a b a u.Y\n10- 1\n0-- 1\n\n" ∧
      Blif.statement n p false = .ok (Blif.coverText ["a", "b", "a"] "u.Y" rows) ∧
      Blif.coverValue rows [true, false, true] = true ∧
      Blif.coverValue rows [true, true, false] = false ∧
      ∃ cell m' table,
        Cell.ofPrimitive {} {} n p = .ok (cell, m') ∧
        cell.params.get? "TABLE" = some (.bits table) ∧ table.length = 12 ∧
        (List.range 2).map (Blif.productRow 3 table) = rows := by
  have hnode : termRun.netlist.nodes[5]?.map
      (fun n => (n.kind, n.inputs.length, n.inputSizes.sum, n.params.get? "TABLE")) =
        some (.sop 3 2 [.zero, .one, .one, .zero, .unknown, .zero, .one, .zero], 3, 3, none) := by
    decide +kernel
  have hshown : (Emit.answer (Emit.assemble 5) termRun).toOption.map (fun p =>
      (p.inputs.map (·.driver.name), p.outputs.map (·.name),
        termRun.netlist.nodes[5]?.bind fun n => (Blif.statement n p false).toOption)) =
      some (["a", "b", "a"], ["u.Y"], some ".names a b a u.Y\n10- 1\n0-- 1\n\n") := by
    decide +kernel
  obtain ⟨n, hn, hfields⟩ := Option.map_eq_some_iff.1 hnode
  obtain ⟨p, r', hassemble, hparts⟩ := Emit.exists_of_answer hshown
  simp only [Prod.mk.injEq, hn, Option.bind_some] at hfields hparts
  obtain ⟨hkind, hinputs, hsizes, hparams⟩ := hfields
  obtain ⟨hdrivers, houtputs, htext⟩ := hparts
  have hsized : n.inputs.length = n.inputSizes.sum := hinputs.trans hsizes.symm
  have hplaces : 2 * 3 * 2 < UInt64.size := by decide
  obtain ⟨-, -, output, rows, houtput, -, -, hstatement, hvalues, hcells⟩ :=
    sumOfProducts_forms_agree hn hkind hsized hplaces hparams hassemble
  rw [houtputs] at houtput
  cases houtput
  obtain ⟨hmade, hcell⟩ := hcells {} {}
  obtain ⟨cell, m', hmade⟩ := hmade.2 (by decide)
  obtain ⟨-, -, table, htable, hlength, hrows⟩ := hcell cell m' hmade
  refine ⟨n, p, r', rows, hn, hkind, hsized, hplaces, hparams, hassemble, eq_ok_of_toOption htext,
    ?_, ?_, ?_, cell, m', table, hmade, htable, hlength, hrows⟩
  · rw [hstatement false, hdrivers]
    rfl
  · apply (hvalues [true, false, true] rfl).2
    refine ⟨0, by decide, ?_⟩
    intro j value hvalue
    rcases j with _ | _ | _ | j <;> cases hvalue <;> decide
  · rw [Bool.eq_false_iff]
    intro hrows
    obtain ⟨t, ht, hholds⟩ := (hvalues [true, true, false] rfl).1 hrows
    -- the first product asks the second input to be zero, the second one the first input
    rcases t with _ | _ | t
    · exact absurd (hholds 1 true rfl) (by decide)
    · exact absurd (hholds 0 true rfl) (by decide)
    · omega

/-- A sum with more products than memory holds rows. -/
def deepOperations : List Operation := [
  .addTopInput "a",
  .addNode "u" (.sop 1 576460752303423488 [.one, .zero]),
  .addPort 4 "A" 1 .input,
  .addPort 4 "Y" 1 .output,
  .connectSink 3 4]

def deepRun : Run := { netlist := (Operation.run Netlist.initial deepOperations).toOption.getD {} }

/-- A sum can be assembled and have no statement. -/
theorem statement_overflow_deepRun :
    ∃ n p r',
      deepRun.netlist.nodes[4]? = some n ∧ n.kind = .sop 1 576460752303423488 [.one, .zero] ∧
      2 * 1 * 576460752303423488 < UInt64.size ∧ n.params.get? "TABLE" = none ∧
      Emit.assemble 4 deepRun = .ok p r' ∧
      n.inputs.length = 1 ∧ n.outputs.length = 1 ∧
      ∀ showParams, Blif.statement n p showParams = .error .overflow := by
  have hnode : deepRun.netlist.nodes[4]?.map
      (fun n => (n.kind, n.inputs.length, n.outputs.length, n.params.get? "TABLE")) =
        some (.sop 1 576460752303423488 [.one, .zero], 1, 1, none) := by
    decide +kernel
  have hassembled : Emit.succeeds (Emit.assemble 4) deepRun = true := by decide +kernel
  obtain ⟨n, hn, hfields⟩ := Option.map_eq_some_iff.1 hnode
  obtain ⟨p, r', hassemble⟩ := Emit.succeeds_iff.1 hassembled
  simp only [Prod.mk.injEq] at hfields
  obtain ⟨hkind, hinputs, houtputs, hparams⟩ := hfields
  refine ⟨n, p, r', hn, hkind, by decide, hparams, hassemble, hinputs, houtputs, ?_⟩
  intro showParams
  rw [statement_sop hkind, if_neg (by decide +kernel)]

end CircuitLowering
