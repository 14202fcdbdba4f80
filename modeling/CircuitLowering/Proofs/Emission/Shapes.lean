import CircuitLowering.Proofs.Emission.Assembly
import CircuitLowering.Proofs.Netlist.Slots

/-!
# Shapes of primitives

A truth table has as many inputs as its width says and one output, a register has two inputs and one
output, and every other primitive may have as many pins as it likes.  A primitive is assembled if it has
the shape that its kind asks for (`Emit.bound_of_assemble`).
-/

namespace CircuitLowering

namespace Node

variable {n : Node} {width : Nat}

theorem tableError?_eq_none_iff :
    n.tableError? width = none ↔ n.inputs.length = width ∧ n.outputs.length = 1 := by
  unfold tableError?
  by_cases hinputs : n.inputs.length = width
  · by_cases houtputs : n.outputs.length = 1
    · simp [hinputs, houtputs]
    · simp [hinputs, houtputs]
  · simp [hinputs]

/-- The shapes of lookup tables that can be written. -/
theorem shapeError?_lut_eq_none_iff {mask : List Bit} (hkind : n.kind = .lut width mask) :
    n.shapeError? = none ↔
      width ≤ maxLutWidth ∧ n.inputs.length = width ∧ n.outputs.length = 1 := by
  unfold shapeError?
  rw [hkind]
  dsimp only
  by_cases hwidth : width ≤ maxLutWidth
  · simp [hwidth, Nat.not_lt.mpr hwidth, tableError?_eq_none_iff]
  · simp [hwidth, Nat.lt_of_not_le hwidth]

theorem shapeError?_sop_eq_none_iff {depth : Nat} {table : List Bit}
    (hkind : n.kind = .sop width depth table) :
    n.shapeError? = none ↔ n.inputs.length = width ∧ n.outputs.length = 1 := by
  unfold shapeError?
  rw [hkind]
  exact tableError?_eq_none_iff

theorem shapeError?_register_eq_none_iff {edge : ClockEdge} {init : InitValue}
    (hkind : n.kind = .register edge init) :
    n.shapeError? = none ↔ n.inputs.length = 2 ∧ n.outputs.length = 1 := by
  unfold shapeError?
  rw [hkind]
  simp [← not_and_or]

end Node

/-- A primitive that was assembled has the shape that its kind asks for and the cell type of its kind, and
all its pins are bound in their order. -/
theorem Emit.bound_of_assemble {id : NodeId} {r r' : Run} {n : Node} {p : Primitive}
    (hn : r.netlist.nodes[id]? = some n) (hsized : n.inputs.length = n.inputSizes.sum)
    (h : assemble id r = .ok p r') :
    n.shapeError? = none ∧ p.cellType = n.kind.cellType?.getD "" ∧
      p.inputs.map (·.slot) = n.inputSlots ∧ p.outputs.map (·.slot) = n.outputSlots := by
  obtain ⟨hnone, -, htype, hinputs, houtputs, -⟩ := (assemble_reads hn hsized).of_ok h
  rw [Netlist.primitiveError?, Option.or_eq_none_iff, Option.map_eq_none_iff] at hnone
  exact ⟨hnone.1, htype, hinputs, houtputs⟩

/-- A primitive is assembled only if its node has pins in its first ports. -/
theorem Emit.assemble_firstPorts {id : NodeId} {r : Run} {n : Node} (hn : r.netlist.nodes[id]? = some n) :
    Ends (assemble id) r
      (fun p _ => p.name = n.name ∧ 0 < n.firstInputSize ∧ 0 < n.firstOutputSize)
      fun _ _ => True := by
  unfold assemble
  refine Ends.bind (ends_ask fun n' hn' => ?_)
  cases hn.symm.trans (Netlist.node_eq_ok_iff.mp hn')
  refine Ends.bind (ends_require fun hinput => Ends.bind (ends_require fun houtput => ?_))
  rw [decide_eq_true_eq] at hinput houtput
  cases n.shapeError? with
  | some reason => exact Ends.bind (ends_fail trivial)
  | none =>
    refine ends_bind_any fun _ _ => ends_bind_any fun _ _ => ends_bind_any fun _ _ => ?_
    exact ends_pure ⟨rfl, hinput, houtput⟩

/-- The one output of a primitive is the output that it is named for. -/
theorem Emit.outputs_of_assemble {id : NodeId} {r r' : Run} {n : Node} {p : Primitive}
    (hn : r.netlist.nodes[id]? = some n) (hone : n.outputs.length = 1)
    (hslots : p.outputs.map (·.slot) = n.outputSlots) (h : assemble id r = .ok p r') :
    p.outputs.map (·.name) = [p.outputName] := by
  obtain ⟨-, -, hfirst⟩ := (assemble_firstPorts hn).of_ok h
  have hsum : 0 < n.outputSizes.sum := by
    rw [Node.firstOutputSize] at hfirst
    cases hsizes : n.outputSizes with
    | nil => simp [hsizes] at hfirst
    | cons size sizes =>
      rw [hsizes, List.headD_cons] at hfirst
      rw [List.sum_cons]
      omega
  have hlength := congrArg List.length hslots
  rw [List.length_map, Node.outputSlots, Slot.length_cut, hone, Nat.min_eq_left hsum] at hlength
  obtain ⟨output, houtput⟩ := List.length_eq_one_iff.mp hlength
  rw [Primitive.outputName, houtput]
  rfl

end CircuitLowering
