import CircuitLowering.Proofs.Blif.Cover
import CircuitLowering.Proofs.Blif.Texts
import CircuitLowering.Proofs.Design.Cells
import CircuitLowering.Proofs.Emission.Shapes
import CircuitLowering.Proofs.Netlist.Operations

/-!
# Lookup tables in both forms

A lookup table is written in two ways.  Its statement lists the inputs from the last to the first
above a cover; its cell lists them from the first to the last beside the mask, which is cut or
extended to one bit for each combination.  Both have the values of the mask
(`lookupTable_forms_agree`), whatever the length of the mask and whatever else than zero and one
stands in it.
-/

namespace CircuitLowering

/-! ### The two forms -/

section Forms

variable {id : NodeId} {r r' : Run} {n : Node} {width : Nat} {mask : List Bit} {p : Primitive}

/-- A lookup table that is assembled has as many inputs as its mask has places, and they are bound in
the order of its pins. -/
theorem assemble_lut (hn : r.netlist.nodes[id]? = some n) (hkind : n.kind = .lut width mask)
    (hsized : n.inputs.length = n.inputSizes.sum) (hassemble : Emit.assemble id r = .ok p r') :
    (width ≤ Node.maxLutWidth ∧ n.inputs.length = width ∧ n.outputs.length = 1) ∧
      p.cellType = "$lut" ∧ p.inputs.map (·.slot.pin) = n.inputs ∧
        p.outputs.map (·.name) = [p.outputName] := by
  obtain ⟨hshape, htype, hinputs, houtputs⟩ := Emit.bound_of_assemble hn hsized hassemble
  have hfits := (Node.shapeError?_lut_eq_none_iff hkind).1 hshape
  refine ⟨hfits, ?_, ?_, Emit.outputs_of_assemble hn hfits.2.2 houtputs hassemble⟩
  · rw [htype, hkind]
    rfl
  · rw [← Node.map_pin_inputSlots hsized, ← hinputs, List.map_map]
    rfl

theorem statement_lut (hkind : n.kind = .lut width mask) (hwidth : width ≤ Node.maxLutWidth)
    (showParams : Bool) :
    Blif.statement n p showParams =
      .ok (Blif.coverText p.inputNames.reverse p.outputName (Blif.lutRows width mask)) := by
  unfold Blif.statement Blif.primitiveLines
  rw [hkind]
  dsimp only
  rw [Blif.lutRowsChecked_eq_ok (hwidth.trans (by decide)), ← Blif.lines_namesBlock]
  rfl

/-- The cell of a lookup table: its inputs in the order of the pins, and its mask made to fit. -/
theorem ofPrimitive_lut (hkind : n.kind = .lut width mask) (hparams : n.params.get? "LUT" = none)
    (m : Module) (d : Design) :
    ∃ cell m', Cell.ofPrimitive m d n p = .ok (cell, m') ∧ cell.type = p.cellType ∧
      cell.ports.get? "A" = some ⟨p.inputs.map (·.driver.bit), .input⟩ ∧
      cell.params.get? "LUT" = some (.bits (Bits.resize (2 ^ width) mask)) := by
  unfold Cell.ofPrimitive Cell.ofKind
  rw [hkind]
  refine ⟨_, _, rfl, ?_, ?_, ?_⟩
  · rw [Cell.type_setParams]
    rfl
  · rw [Cell.ports_setParams, Module.driverBits_fst, List.map_map]
    rfl
  · rw [Cell.get?_params_setParams _ hparams]
    rfl

/-- Both forms of a lookup table have the values of its mask.  The columns of the cover stand from
left to right below the inputs in reverse, so a combination of values is matched in reverse; the
cell takes the inputs in the order of the pins, and its own mask has one bit for each combination.
That the node has as many pins as its ports have room for holds in every cross-referenced netlist. -/
theorem lookupTable_forms_agree (hn : r.netlist.nodes[id]? = some n)
    (hkind : n.kind = .lut width mask) (hsized : n.inputs.length = n.inputSizes.sum)
    (hparams : n.params.get? "LUT" = none) (hassemble : Emit.assemble id r = .ok p r') :
    (width ≤ Node.maxLutWidth ∧ n.inputs.length = width ∧ n.outputs.length = 1) ∧
    p.inputs.map (·.slot.pin) = n.inputs ∧
    (∃ output rows, p.outputs.map (·.name) = [output] ∧
      (∀ showParams, Blif.statement n p showParams =
        .ok (Blif.coverText (p.inputs.map (·.driver.name)).reverse output rows)) ∧
      (∀ row ∈ rows, Blif.IsRow width row) ∧
      ∀ values : List Bool, values.length = width →
        Blif.coverValue rows values.reverse = Bits.select mask values) ∧
    ∀ (m : Module) (d : Design), ∃ cell m' table,
      Cell.ofPrimitive m d n p = .ok (cell, m') ∧ cell.type = "$lut" ∧
      cell.ports.get? "A" = some ⟨p.inputs.map (·.driver.bit), .input⟩ ∧
      cell.params.get? "LUT" = some (.bits table) ∧ table.length = 2 ^ width ∧
      ∀ values : List Bool, values.length = width →
        Bits.select table values = Bits.select mask values := by
  obtain ⟨hshape, htype, hpins, houtput⟩ := assemble_lut hn hkind hsized hassemble
  have hwidth : width < 64 := Nat.lt_of_le_of_lt hshape.1 (by decide)
  refine ⟨hshape, hpins, ⟨_, Blif.lutRows width mask, houtput, ?_, ?_, ?_⟩, ?_⟩
  · intro showParams
    exact statement_lut hkind hshape.1 showParams
  · intro row hrow
    exact Blif.isRow_of_mem_lutRows (Or.inl hwidth) hrow
  · intro values h
    subst h
    exact Blif.coverValue_lutRows values (Or.inl hwidth)
  · intro m d
    obtain ⟨cell, m', hcell, hcellType, hports, htable⟩ := ofPrimitive_lut hkind hparams m d
    refine ⟨cell, m', _, hcell, hcellType.trans htype, hports, htable, Bits.length_resize _ _, ?_⟩
    intro values h
    subst h
    exact Bits.select_resize mask values

end Forms

/-- A lookup table with its inputs over two ports, one of them a constant, and a mask that is too
short and not defined throughout. -/
def splitOperations : List Operation := [
  .addTopInput "a",
  .addTopInput "b",
  .addNode "u" (.lut 3 [.zero, .unknown, .zero, .one, .one]),
  .addPort 5 "I" 2 .input,
  .addPort 5 "J" 1 .input,
  .addPort 5 "O" 1 .output,
  .connectSink 3 5,
  .connectSink 4 6,
  .connectSink 1 7]

def splitRun : Run := { netlist := (Operation.run Netlist.initial splitOperations).toOption.getD {} }

theorem lookupTable_forms_agree_splitRun :
    ∃ n p r' rows,
      splitRun.netlist.nodes[5]? = some n ∧
      n.kind = .lut 3 [.zero, .unknown, .zero, .one, .one] ∧
      n.inputs.length = n.inputSizes.sum ∧ n.params.get? "LUT" = none ∧
      Emit.assemble 5 splitRun = .ok p r' ∧
      Blif.statement n p false = .ok ".names vcc b a u.O\n011 1\n100 1\n\n" ∧
      Blif.statement n p false = .ok (Blif.coverText ["vcc", "b", "a"] "u.O" rows) ∧
      Blif.coverValue rows [false, true, true] = true ∧
      Blif.coverValue rows [true, true, false] = false ∧
      ∃ cell m' table,
        Cell.ofPrimitive {} {} n p = .ok (cell, m') ∧
        cell.params.get? "LUT" = some (.bits table) ∧
        Bits.select table [true, true, false] = true ∧
        Bits.select table [false, true, true] = false := by
  have hnode : splitRun.netlist.nodes[5]?.map
      (fun n => (n.kind, n.inputs.length, n.inputSizes.sum, n.params.get? "LUT")) =
        some (.lut 3 [.zero, .unknown, .zero, .one, .one], 3, 3, none) := by
    decide +kernel
  have hshown : (Emit.answer (Emit.assemble 5) splitRun).toOption.map (fun p =>
      (p.inputs.map (·.driver.name), p.outputs.map (·.name),
        splitRun.netlist.nodes[5]?.bind fun n => (Blif.statement n p false).toOption)) =
      some (["a", "b", "vcc"], ["u.O"], some ".names vcc b a u.O\n011 1\n100 1\n\n") := by
    decide +kernel
  obtain ⟨n, hn, hfields⟩ := Option.map_eq_some_iff.1 hnode
  obtain ⟨p, r', hassemble, hparts⟩ := Emit.exists_of_answer hshown
  simp only [Prod.mk.injEq, hn, Option.bind_some] at hfields hparts
  obtain ⟨hkind, hinputs, hsizes, hparams⟩ := hfields
  obtain ⟨hdrivers, houtputs, htext⟩ := hparts
  have hsized : n.inputs.length = n.inputSizes.sum := hinputs.trans hsizes.symm
  obtain ⟨-, -, ⟨output, rows, houtput, hrows, -, hvalues⟩, hcell⟩ :=
    lookupTable_forms_agree hn hkind hsized hparams hassemble
  rw [houtputs] at houtput
  cases houtput
  obtain ⟨cell, m', table, hcell, -, -, htable, -, hselect⟩ := hcell {} {}
  refine ⟨n, p, r', rows, hn, hkind, hsized, hparams, hassemble, eq_ok_of_toOption htext, ?_, ?_, ?_,
    cell, m', table, hcell, htable, ?_, ?_⟩
  · rw [hrows false, hdrivers]
    rfl
  · exact hvalues [true, true, false] rfl
  · exact hvalues [false, true, true] rfl
  · exact hselect [true, true, false] rfl
  · exact hselect [false, true, true] rfl

end CircuitLowering
