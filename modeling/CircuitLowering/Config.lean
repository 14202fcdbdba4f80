import CircuitLowering.Json.Shape

/-!
# Configuration

The settings of an emission run and their JSON form, a record in which every setting may be left
out.

The settings are those of the specification (section 10.4).
-/

namespace CircuitLowering

/-- The settings of an emission run. -/
structure Config where
  topModule : String := "top"
  /-- Memories were split into slices of one bit, so the data ports of RAMs have one bit. -/
  splitMemoryWidth : Bool := false
  /-- The address width of split memories. -/
  splitMemoryDepth : Option UInt64 := none
  /-- The address width of split dual-port memories, where it differs from `splitMemoryDepth`. -/
  dualPortSplitDepth : Option UInt64 := none
  /-- Whether BLIF shows the parameters of hard blocks. -/
  emitParams : Bool := true
  /-- The mark that every visited node gets. -/
  traversalMark : UInt16 := 1
deriving DecidableEq, Repr

namespace Config

def dualPortDepth (c : Config) : Option UInt64 := c.dualPortSplitDepth.or c.splitMemoryDepth

/-- The fields of a configuration. A setting that is left out has its default. -/
def fields : Json.Fields (String × Bool × Option UInt64 × Option UInt64 × Bool × UInt16 × Unit) :=
  let default : Config := {}
  .field "top_module" .text default.topModule <|
  .field "split_memory_width" .bool default.splitMemoryWidth <|
  .field "split_memory_depth" (.optional .uint64) (some default.splitMemoryDepth) <|
  .field "dual_port_split_depth" (.optional .uint64) (some default.dualPortSplitDepth) <|
  .field "emit_params" .bool default.emitParams <|
  .field "traversal_mark" .uint16 default.traversalMark .done

def shape : Json.Shape Config :=
  .record fields
    (fun c =>
      (c.topModule, c.splitMemoryWidth, c.splitMemoryDepth, c.dualPortSplitDepth, c.emitParams,
        c.traversalMark, ()))
    (fun (topModule, splitMemoryWidth, splitMemoryDepth, dualPortSplitDepth, emitParams,
        traversalMark, ()) =>
      { topModule, splitMemoryWidth, splitMemoryDepth, dualPortSplitDepth, emitParams,
        traversalMark })
    (fun _ => rfl)

end Config

end CircuitLowering
