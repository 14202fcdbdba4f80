import CircuitLowering.Proofs.Design.Rtlil.Readable

/-!
# Text determines designs

The lines of a design fall into blocks: those of a module end with its only module end, those of a cell
with its only cell end, and those of a wire with its only line of a wire.  An attribute belongs to what
follows it.  So the lines determine the modules, their wires, cells and connections, and with the widths
of the wires the signals as well.

A text does not show the directions with which the ports of a cell are bound, nor the next number for a
fresh wire.  All else that a design has, its text shows (`shown_eq_of_text`).
-/

namespace CircuitLowering

/-! ### What a text shows -/

def Connection.shown (binding : Connection) : Connection := { binding with direction := .input }

def Cell.shown (c : Cell) : Cell := { c with ports := c.ports.map Connection.shown }

/-- The module without what its text does not show. -/
def Module.shown (m : Module) : Module :=
  { m with cells := m.cells.map Cell.shown, nextFresh := 0 }

def Design.shown (d : Design) : Design := { d with modules := d.modules.map Module.shown }

namespace Rtlil.Line

open Text

/-! ### Lines of one kind -/

def isAttr : Line → Bool
  | attr .. => true
  | _ => false

def isParam : Line → Bool
  | param .. => true
  | _ => false

def isWire : Line → Bool
  | wire .. => true
  | _ => false

def isCellEnd : Line → Bool
  | cellEnd => true
  | _ => false

def isModuleEnd : Line → Bool
  | moduleEnd => true
  | _ => false

variable {inner : Bool} {attributes attributes' params params' : Ordered Param}
  {ports ports' : Ordered Connection} {name name' : String} {w w' : Wire} {c c' : Cell} {m m' : Module}
  {wires : Ordered Wire} {top top' : Option String} {p : Line → Bool} {r r' : List Line}

theorem eq_false_of_mem_ofAttributes
    (hattr : ∀ inner name value, p (attr inner name value) = false) :
    ∀ l ∈ ofAttributes inner attributes, p l = false := by
  intro l hl
  obtain ⟨entry, -, rfl⟩ := List.mem_map.mp hl
  exact hattr _ _ _

theorem eq_false_of_mem_ofWire (hattr : ∀ inner name value, p (attr inner name value) = false)
    (hwire : ∀ name width place, p (wire name width place) = false) :
    ∀ l ∈ ofWire name w, p l = false := by
  intro l hl
  rcases List.mem_append.mp hl with hl | hl
  · exact eq_false_of_mem_ofAttributes hattr l hl
  · rw [List.mem_singleton.mp hl]
    exact hwire _ _ _

theorem eq_false_of_mem_ofCell (hattr : ∀ inner name value, p (attr inner name value) = false)
    (hcell : ∀ type name, p (cell type name) = false)
    (hparam : ∀ name value, p (param name value) = false)
    (hport : ∀ name signal, p (port name signal) = false) (hend : p cellEnd = false) :
    ∀ l ∈ ofCell wires name c, p l = false := by
  intro l hl
  simp only [ofCell, ofParams, ofPorts, List.mem_append, List.mem_cons, List.mem_map, List.not_mem_nil,
    or_false] at hl
  rcases hl with hl | rfl | ⟨entry, -, rfl⟩ | ⟨entry, -, rfl⟩ | rfl
  · exact eq_false_of_mem_ofAttributes hattr l hl
  · exact hcell _ _
  · exact hparam _ _
  · exact hport _ _
  · exact hend

/-! ### Blocks -/

theorem isBlock_ofWire (name : String) (w : Wire) : IsBlock isWire (ofWire name w) :=
  ⟨_, _, rfl, eq_false_of_mem_ofAttributes fun _ _ _ => rfl, rfl⟩

theorem isBlock_ofCell (wires : Ordered Wire) (name : String) (c : Cell) :
    IsBlock isCellEnd (ofCell wires name c) := by
  refine ⟨ofAttributes true c.attributes ++
    cell c.type name :: (ofParams c.params ++ ofPorts wires c.ports), cellEnd, by simp [ofCell], ?_, rfl⟩
  intro l hl
  simp only [ofParams, ofPorts, List.mem_append, List.mem_cons, List.mem_map] at hl
  rcases hl with hl | rfl | ⟨entry, -, rfl⟩ | ⟨entry, -, rfl⟩
  · exact eq_false_of_mem_ofAttributes (fun _ _ _ => rfl) l hl
  · rfl
  · rfl
  · rfl

theorem isAttr_of_mem_ofHeading {l : Line} (h : l ∈ ofHeading top name m) : l.isAttr = true := by
  rcases List.mem_append.mp h with h | h
  · split at h
    · rw [List.mem_singleton.mp h]
      rfl
    · cases h
  · obtain ⟨entry, -, rfl⟩ := List.mem_map.mp h
    rfl

theorem isBlock_ofModule (top : Option String) (name : String) (m : Module) :
    IsBlock isModuleEnd (ofModule top name m) := by
  refine ⟨ofHeading top name m ++ module name :: (ofWires m ++ (ofCells m ++ ofConnections m)),
    moduleEnd, by simp [ofModule], ?_, rfl⟩
  intro l hl
  simp only [ofWires, ofCells, ofConnections, List.mem_append, List.mem_cons, List.mem_flatMap,
    List.mem_map] at hl
  rcases hl with hl | rfl | ⟨entry, -, hl⟩ | ⟨entry, -, hl⟩ | ⟨connection, -, rfl⟩
  · have hattr := isAttr_of_mem_ofHeading hl
    cases l <;> first | rfl | cases hattr
  · rfl
  · exact eq_false_of_mem_ofWire (fun _ _ _ => rfl) (fun _ _ _ => rfl) l hl
  · exact eq_false_of_mem_ofCell (fun _ _ _ => rfl) (fun _ _ => rfl) (fun _ _ => rfl)
      (fun _ _ => rfl) rfl l hl
  · rfl

/-! ### Attributes and wires -/

theorem ofAttributes_injective (h : ofAttributes inner attributes = ofAttributes inner attributes') :
    attributes = attributes' := by
  apply Ordered.ext
  apply eq_of_map_eq _ h
  intro entry _ entry' _ heq
  obtain ⟨-, hname, hvalue⟩ := Line.attr.inj heq
  exact Prod.ext hname hvalue

/-- Attributes end where something else begins. -/
theorem attributes_append_inj {l l' : Line} (hl : l.isAttr = false) (hl' : l'.isAttr = false)
    {before before' : List Line} (hbefore : ∀ l ∈ before, l.isAttr = true)
    (hbefore' : ∀ l ∈ before', l.isAttr = true) (h : before ++ l :: r = before' ++ l' :: r') :
    before = before' ∧ l = l' ∧ r = r' := by
  have hmarks := append_inj_of_marks (p := fun l => !l.isAttr) (fun l hl => by simp [hbefore l hl])
    (fun l hl => by simp [hbefore' l hl]) (by simpa using hl) (by simpa using hl') h
  exact ⟨hmarks.1, List.cons.inj hmarks.2⟩

theorem ofWire_injective (hw : w.IsReadable) (hw' : w'.IsReadable)
    (h : ofWire name w = ofWire name' w') : name = name' ∧ w = w' := by
  obtain ⟨hattributes, hline⟩ := List.append_inj' h rfl
  rw [List.cons.injEq, Line.wire.injEq] at hline
  obtain ⟨⟨rfl, hwidth, hplace⟩, -⟩ := hline
  refine ⟨rfl, ?_⟩
  rcases w with ⟨width, direction, place, attributes⟩
  rcases w' with ⟨width', direction', place', attributes'⟩
  obtain rfl := ofAttributes_injective hattributes
  obtain rfl : width = width' := hwidth
  cases direction with
  | none =>
    cases direction' with
    | none =>
      obtain rfl : place = 0 := hw.place rfl
      obtain rfl : place' = 0 := hw'.place rfl
      rfl
    | some d' => cases hplace
  | some d =>
    cases direction' with
    | none => cases hplace
    | some d' =>
      cases hplace
      rfl

/-- Wires end where there are no more lines of wires. -/
theorem ofWires_append_inj (hm : m.IsReadable) (hm' : m'.IsReadable) (hr : ∀ l ∈ r, l.isWire = false)
    (hr' : ∀ l ∈ r', l.isWire = false) (h : ofWires m ++ r = ofWires m' ++ r') :
    m.wires = m'.wires ∧ r = r' := by
  obtain ⟨hblocks, hrest⟩ := flatMap_append_inj (fun entry _ => isBlock_ofWire entry.1 entry.2)
    (fun entry _ => isBlock_ofWire entry.1 entry.2) hr hr' h
  refine ⟨Ordered.ext (eq_of_map_eq ?_ hblocks), hrest⟩
  intro entry hentry entry' hentry' heq
  obtain ⟨hname, hw⟩ := ofWire_injective (hm.wires entry hentry).2 (hm'.wires entry' hentry').2 heq
  exact Prod.ext hname hw

/-! ### Cells and connections -/

theorem ofParams_injective (h : ofParams params = ofParams params') : params = params' := by
  apply Ordered.ext
  apply eq_of_map_eq _ h
  intro entry _ entry' _ heq
  obtain ⟨hname, hvalue⟩ := Line.param.inj heq
  exact Prod.ext hname hvalue

theorem ofPorts_injective (h : ofPorts wires ports = ofPorts wires ports') :
    ports.map Connection.shown = ports'.map Connection.shown := by
  apply Ordered.ext
  refine map_eq_map_of_determined ?_ h
  intro entry _ entry' _ heq
  obtain ⟨hname, hsignal⟩ := Line.port.inj heq
  exact Prod.ext hname (congrArg (Connection.mk · .input) (signalWords_injective hsignal))

/-- Parameters end where ports or the end of the cell begin. -/
theorem params_append_inj (h : ofParams params ++ (ofPorts wires ports ++ [cellEnd]) =
      ofParams params' ++ (ofPorts wires ports' ++ [cellEnd])) :
    params = params' ∧ ports.map Connection.shown = ports'.map Connection.shown := by
  have hparams (params : Ordered Param) : ∀ l ∈ ofParams params, (!l.isParam) = false := by
    intro l hl
    obtain ⟨entry, -, rfl⟩ := List.mem_map.mp hl
    rfl
  have hports (ports : Ordered Connection) :
      ∀ l ∈ (ofPorts wires ports ++ [cellEnd]).head?, (!l.isParam) = true := by
    unfold ofPorts
    cases ports.entries with
    | nil =>
      rintro l ⟨⟩
      rfl
    | cons entry entries =>
      rintro l ⟨⟩
      rfl
  obtain ⟨hsame, hrest⟩ :=
    append_inj_of_marks (hparams params) (hparams params') (hports ports) (hports ports') h
  exact ⟨ofParams_injective hsame, ofPorts_injective (List.append_cancel_right hrest)⟩

theorem ofCell_injective (h : ofCell wires name c = ofCell wires name' c') :
    name = name' ∧ c.shown = c'.shown := by
  have hattr {attributes : Ordered Param} : ∀ l ∈ ofAttributes true attributes, l.isAttr = true := by
    intro l hl
    obtain ⟨entry, -, rfl⟩ := List.mem_map.mp hl
    rfl
  obtain ⟨hattributes, hcell, hrest⟩ := attributes_append_inj rfl rfl hattr hattr h
  obtain ⟨htype, rfl⟩ := Line.cell.inj hcell
  obtain ⟨hparams, hports⟩ := params_append_inj hrest
  refine ⟨rfl, ?_⟩
  unfold Cell.shown
  rw [htype, hports, hparams, ofAttributes_injective hattributes]

/-- Cells end where there are no more ends of cells. -/
theorem ofCells_append_inj (hwires : m.wires = m'.wires) (hr : ∀ l ∈ r, l.isCellEnd = false)
    (hr' : ∀ l ∈ r', l.isCellEnd = false) (h : ofCells m ++ r = ofCells m' ++ r') :
    m.cells.map Cell.shown = m'.cells.map Cell.shown ∧ r = r' := by
  obtain ⟨hblocks, hrest⟩ := flatMap_append_inj (fun entry _ => isBlock_ofCell m.wires entry.1 entry.2)
    (fun entry _ => isBlock_ofCell m'.wires entry.1 entry.2) hr hr' h
  refine ⟨Ordered.ext (map_eq_map_of_determined ?_ hblocks), hrest⟩
  intro entry _ entry' _ heq
  rw [hwires] at heq
  obtain ⟨hname, hshown⟩ := ofCell_injective heq
  exact Prod.ext hname hshown

theorem ofConnections_injective (hwires : m.wires = m'.wires) (h : ofConnections m = ofConnections m') :
    m.connections = m'.connections := by
  rw [ofConnections, ofConnections, hwires] at h
  apply eq_of_map_eq _ h
  intro connection _ connection' _ heq
  obtain ⟨hdriven, hdriving⟩ := signalWords_append_signalWords_inj (Line.connect.inj heq)
  exact Prod.ext hdriven hdriving

/-! ### Modules and designs -/

theorem body_injective (hm : m.IsReadable) (hm' : m'.IsReadable)
    (h : ofWires m ++ (ofCells m ++ (ofConnections m ++ [moduleEnd])) =
      ofWires m' ++ (ofCells m' ++ (ofConnections m' ++ [moduleEnd]))) :
    m.wires = m'.wires ∧ m.cells.map Cell.shown = m'.cells.map Cell.shown ∧
      m.connections = m'.connections := by
  have hconnections {p : Line → Bool} (hconnect : ∀ signals, p (connect signals) = false)
      (hend : p moduleEnd = false) (m : Module) : ∀ l ∈ ofConnections m ++ [moduleEnd], p l = false := by
    intro l hl
    rcases List.mem_append.mp hl with hl | hl
    · obtain ⟨connection, -, rfl⟩ := List.mem_map.mp hl
      exact hconnect _
    · rw [List.mem_singleton.mp hl]
      exact hend
  have hcells (m : Module) :
      ∀ l ∈ ofCells m ++ (ofConnections m ++ [moduleEnd]), l.isWire = false := by
    intro l hl
    rcases List.mem_append.mp hl with hl | hl
    · obtain ⟨entry, -, hl⟩ := List.mem_flatMap.mp hl
      exact eq_false_of_mem_ofCell (fun _ _ _ => rfl) (fun _ _ => rfl) (fun _ _ => rfl)
        (fun _ _ => rfl) rfl l hl
    · exact hconnections (fun _ => rfl) rfl m l hl
  obtain ⟨hwires, hrest⟩ := ofWires_append_inj hm hm' (hcells m) (hcells m') h
  obtain ⟨hshown, hrest⟩ := ofCells_append_inj hwires (hconnections (fun _ => rfl) rfl m)
    (hconnections (fun _ => rfl) rfl m') hrest
  exact ⟨hwires, hshown, ofConnections_injective hwires (List.append_cancel_right hrest)⟩

theorem ofHeading_injective (hm : m.IsReadable) (hm' : m'.IsReadable)
    (h : ofHeading top name m = ofHeading top' name' m') :
    m.attributes = m'.attributes ∧ (top = some name ↔ top' = some name') := by
  have htop {m : Module} (hm : m.IsReadable) (rest : List Line) :
      attr false "top" (.ofInt 1) :: rest ≠ ofAttributes false m.attributes := by
    intro h
    have hmem : attr false "top" (.ofInt 1) ∈ ofAttributes false m.attributes :=
      h ▸ List.mem_cons_self
    obtain ⟨entry, hentry, heq⟩ := List.mem_map.mp hmem
    have hname : entry.1 = "top" := (Line.attr.inj heq).2.1
    exact (hm.attributes entry.1 (List.mem_map_of_mem hentry)).2 hname
  unfold ofHeading at h
  split at h <;> split at h
  · next ht ht' => exact ⟨ofAttributes_injective (List.cons.inj h).2, iff_of_true ht ht'⟩
  · exact absurd h (htop hm' _)
  · exact absurd h.symm (htop hm _)
  · next ht ht' => exact ⟨ofAttributes_injective h, iff_of_false ht ht'⟩

theorem ofModule_injective (hm : m.IsReadable) (hm' : m'.IsReadable)
    (h : ofModule top name m = ofModule top' name' m') :
    name = name' ∧ m.shown = m'.shown ∧ (top = some name ↔ top' = some name') := by
  obtain ⟨hheading, hmodule, hbody⟩ := attributes_append_inj rfl rfl
    (fun _ => isAttr_of_mem_ofHeading) (fun _ => isAttr_of_mem_ofHeading) h
  obtain rfl := Line.module.inj hmodule
  obtain ⟨hattributes, htop⟩ := ofHeading_injective hm hm' hheading
  obtain ⟨hwires, hcells, hconnections⟩ := body_injective hm hm' hbody
  refine ⟨rfl, ?_, htop⟩
  unfold Module.shown
  rw [hwires, hcells, hconnections, hattributes]

/-- A top module is told from which of the modules say that they are it. -/
theorem top_eq_some_of_entries {d d' : Design} (hd : d.IsReadable)
    (h : d.modules.entries.map (fun entry => (entry.1, d.top = some entry.1)) =
      d'.modules.entries.map fun entry => (entry.1, d'.top = some entry.1))
    (hname : d.top = some name) : d'.top = some name := by
  obtain ⟨entry, hentry, rfl⟩ := List.mem_map.mp (hd.top name hname)
  have hmem := List.mem_map_of_mem (f := fun entry => (entry.1, d.top = some entry.1)) hentry
  rw [h] at hmem
  obtain ⟨entry', -, heq⟩ := List.mem_map.mp hmem
  rw [Prod.mk.injEq] at heq
  rw [← heq.1, heq.2]
  exact hname

theorem ofDesign_injective {d d' : Design} (hd : d.IsReadable) (hd' : d'.IsReadable)
    (h : ofDesign d = ofDesign d') : d.shown = d'.shown := by
  have hblocks := map_eq_map_of_flatMap (fun entry _ => isBlock_ofModule d.top entry.1 entry.2)
    (fun entry _ => isBlock_ofModule d'.top entry.1 entry.2) h
  have hshown : d.modules.map Module.shown = d'.modules.map Module.shown := by
    apply Ordered.ext
    refine map_eq_map_of_determined ?_ hblocks
    intro entry hentry entry' hentry' heq
    obtain ⟨hname, hshown, -⟩ :=
      ofModule_injective (hd.modules entry hentry).2 (hd'.modules entry' hentry').2 heq
    exact Prod.ext hname hshown
  have htops : d.modules.entries.map (fun entry => (entry.1, d.top = some entry.1)) =
      d'.modules.entries.map fun entry => (entry.1, d'.top = some entry.1) := by
    refine map_eq_map_of_determined ?_ hblocks
    intro entry hentry entry' hentry' heq
    obtain ⟨hname, -, htop⟩ :=
      ofModule_injective (hd.modules entry hentry).2 (hd'.modules entry' hentry').2 heq
    exact Prod.ext hname (propext htop)
  have htop : d.top = d'.top := Option.ext fun name =>
    ⟨top_eq_some_of_entries hd htops, top_eq_some_of_entries hd' htops.symm⟩
  unfold Design.shown
  rw [hshown, htop]

end Rtlil.Line

/-! ### Texts -/

/-- Designs with one text have the same top module and the same modules, wires, cells and connections. -/
theorem Rtlil.shown_eq_of_text {d d' : Design} {t : String} (h : d.IsReadable) (h' : d'.IsReadable)
    (ht : Rtlil.text d = .ok t) (ht' : Rtlil.text d' = .ok t) : d.shown = d'.shown :=
  Line.ofDesign_injective h h' (ofDesign_eq_of_text h h' ht ht')

/-- A design of one inverter with a wire of four bits, whose ports are bound with that direction. -/
def inverterDesign (direction : Direction) : Design where
  modules := .ofList [("m", {
    wires := .ofList [("a", { width := 4, direction := some .input, portId := 1 }),
      ("y", { width := 1, direction := some .output, portId := 2 }), ("n", { width := 3 })]
    cells := .ofList [("u", ((({ type := "$not" } : Cell).setParam "A_WIDTH" (.ofInt 3)).bind
      "A" [.wire "a" 1, .wire "a" 2, .const .zero] direction).bind "Y"
      [.wire "n" 0, .wire "n" 1, .wire "n" 2] direction)]
    connections := [([.wire "y" 0], [.wire "n" 2])]
    attributes := .ofList [("src", .text "m \"v\"")] })]
  top := some "m"

def inverterLines : List String :=
  ["attribute \\top 1", "attribute \\src \"m \\\"v\\\"\"", "module \\m", "  wire width 4 input 1 \\a",
    "  wire output 2 \\y", "  wire width 3 \\n", "  cell $not \\u", "    parameter \\A_WIDTH 3",
    "    connect \\A \x7b 1'0 \\a [2:1] \x7d", "    connect \\Y \\n", "  end",
    "  connect \\y \\n [2]", "end"]

theorem text_inverterDesign (direction : Direction) :
    Rtlil.text (inverterDesign direction) = .ok (Text.lines inverterLines) := by
  have hlines : Rtlil.designLines (inverterDesign direction) = inverterLines := by
    cases direction <;> decide +kernel
  rw [Rtlil.text, if_pos (by cases direction <;> decide +kernel), hlines]

theorem Rtlil.shown_eq_inverterDesign :
    (inverterDesign .input).shown = (inverterDesign .output).shown :=
  Rtlil.shown_eq_of_text (by decide +kernel) (by decide +kernel) (text_inverterDesign .input)
    (text_inverterDesign .output)

end CircuitLowering
