import CircuitLowering.Proofs.Design.Rtlil.Signals
import Mathlib.Data.List.Basic

/-!
# Lines of RTLIL text

What a line says: an attribute of what follows, a module, a wire with its width and place, a cell, a
parameter or a port of that cell, a connection, or an end.  Lines that say different things have
different words (`Line.words_injective`), and the lines of a design are those of its attributes, wires,
cells and connections (`map_spaced_designLines`).
-/

namespace CircuitLowering.Rtlil

/-- What a line says.  An inner attribute is that of a wire or a cell. -/
inductive Line where
  | attr (inner : Bool) (name : String) (value : Param)
  | module (name : String)
  | wire (name : String) (width : Nat) (place : Option (Direction × Nat))
  | cell (type name : String)
  | param (name : String) (value : Param)
  | port (name : String) (signal : List Word)
  | connect (signals : List Word)
  | cellEnd
  | moduleEnd

namespace Line

def widthWords (width : Nat) : List Word :=
  if width = 1 then [] else [.keyword .width, .number width]

def placeWords : Option (Direction × Nat) → List Word
  | none => []
  | some (.input, place) => [.keyword .input, .number place]
  | some (.output, place) => [.keyword .output, .number place]

def words : Line → List Word
  | attr false name value => [.keyword .attr, .name name, .ofParam value]
  | attr true name value => [.blank, .blank, .keyword .attr, .name name, .ofParam value]
  | module name => [.keyword .module, .name name]
  | wire name width place =>
    [.blank, .blank, .keyword .wire] ++ (widthWords width ++ (placeWords place ++ [.name name]))
  | cell type name => [.blank, .blank, .keyword .cell, .name type, .name name]
  | param name value =>
    [.blank, .blank, .blank, .blank, .keyword .param, .name name, .ofParam value]
  | port name signal =>
    [.blank, .blank, .blank, .blank, .keyword .connect, .name name] ++ signal
  | connect signals => [.blank, .blank, .keyword .connect] ++ signals
  | cellEnd => [.blank, .blank, .keyword .close]
  | moduleEnd => [.keyword .close]

theorem placeWords_append_inj {place place' : Option (Direction × Nat)} {name name' : String}
    (h : placeWords place ++ [.name name] = placeWords place' ++ [.name name']) :
    place = place' ∧ name = name' := by
  rcases place with _ | ⟨_ | _, i⟩ <;> rcases place' with _ | ⟨_ | _, j⟩ <;> cases h <;>
    exact ⟨rfl, rfl⟩

theorem widthWords_append_inj {width width' : Nat} {place place' : Option (Direction × Nat)}
    {name name' : String} (h : widthWords width ++ (placeWords place ++ [.name name]) =
      widthWords width' ++ (placeWords place' ++ [.name name'])) :
    width = width' ∧ placeWords place ++ [.name name] = placeWords place' ++ [.name name'] := by
  -- no place and no name begins with the word of a width
  have hwidth {rest : List Word} (place : Option (Direction × Nat)) (name : String) :
      placeWords place ++ [.name name] ≠ .keyword .width :: rest := by
    rcases place with _ | ⟨_ | _, i⟩ <;> rintro ⟨⟩
  unfold widthWords at h
  split at h <;> split at h
  · next hone hone' => exact ⟨hone.trans hone'.symm, h⟩
  · exact absurd h (hwidth _ _)
  · exact absurd h.symm (hwidth _ _)
  · simp only [List.cons_append, List.nil_append, List.cons.injEq, Word.number.injEq, true_and] at h
    exact ⟨Int.ofNat.inj h.1, h.2⟩

theorem words_injective {l l' : Line} (h : l.words = l'.words) : l = l' := by
  cases l with
  | attr inner name value =>
    cases l' with
    | attr inner' name' value' =>
      obtain rfl : inner = inner' := by
        cases inner <;> cases inner' <;> first | rfl | cases h
      cases inner <;> simpa [words] using h
    | _ => cases inner <;> cases h
  | wire name width place =>
    cases l' with
    | wire name' width' place' =>
      obtain ⟨rfl, hrest⟩ := widthWords_append_inj (List.append_cancel_left h)
      obtain ⟨rfl, rfl⟩ := placeWords_append_inj hrest
      rfl
    | attr inner' name' value' => cases inner' <;> cases h
    | _ => cases h
  | param name value =>
    cases l' with
    | param name' value' => simpa [words] using h
    | attr inner' name' value' => cases inner' <;> cases h
    | _ => cases h
  | _ =>
    cases l' with
    | attr inner' name' value' => cases inner' <;> cases h
    | _ => cases h <;> rfl

/-- Whether what a line says can be told from its letters. -/
def IsReadable (l : Line) : Prop := Readable l.words

def spaced (l : Line) : List Char := written l.words

theorem spaced_injective {l l' : Line} (hl : l.IsReadable) (hl' : l'.IsReadable)
    (h : l.spaced = l'.spaced) : l = l' :=
  words_injective (written_injective hl hl' h)

/-! ### The lines of a design -/

def ofAttributes (inner : Bool) (attributes : Ordered Param) : List Line :=
  attributes.entries.map fun entry => attr inner entry.1 entry.2

def ofWire (name : String) (w : Wire) : List Line :=
  ofAttributes true w.attributes ++ [wire name w.width (w.direction.map (·, w.portId))]

def ofParams (params : Ordered Param) : List Line :=
  params.entries.map fun entry => param entry.1 entry.2

def ofPorts (wires : Ordered Wire) (ports : Ordered Connection) : List Line :=
  ports.entries.map fun entry => port entry.1 (signalWords wires entry.2.signal)

def ofCell (wires : Ordered Wire) (name : String) (c : Cell) : List Line :=
  ofAttributes true c.attributes ++ cell c.type name ::
    (ofParams c.params ++ (ofPorts wires c.ports ++ [cellEnd]))

def ofConnection (wires : Ordered Wire) (connection : Signal × Signal) : Line :=
  connect (signalWords wires connection.1 ++ signalWords wires connection.2)

def ofWires (m : Module) : List Line :=
  m.wires.entries.flatMap fun entry => ofWire entry.1 entry.2

def ofCells (m : Module) : List Line :=
  m.cells.entries.flatMap fun entry => ofCell m.wires entry.1 entry.2

def ofConnections (m : Module) : List Line := m.connections.map (ofConnection m.wires)

def ofHeading (top : Option String) (name : String) (m : Module) : List Line :=
  (if top = some name then [attr false "top" (.ofInt 1)] else []) ++ ofAttributes false m.attributes

def ofModule (top : Option String) (name : String) (m : Module) : List Line :=
  ofHeading top name m ++ module name ::
    (ofWires m ++ (ofCells m ++ (ofConnections m ++ [moduleEnd])))

def ofDesign (d : Design) : List Line :=
  d.modules.entries.flatMap fun entry => ofModule d.top entry.1 entry.2

end Line

/-! ### The letters of these lines -/

def spaced (line : String) : List Char := ' ' :: line.toList

theorem map_spaced_attributeLines (inner : Bool) (attributes : Ordered Param) :
    (attributeLines (if inner then "  " else "") attributes).map spaced =
      (Line.ofAttributes inner attributes).map Line.spaced := by
  rw [attributeLines, Line.ofAttributes, List.map_map, List.map_map]
  apply List.map_congr_left
  intro entry _
  cases inner <;>
    simp only [Function.comp_apply, Line.spaced, Line.words, written, List.flatMap_cons,
      Word.text_ofParam] <;>
    simp [spaced, Word.text, Keyword.text]

theorem spaced_wire (name : String) (width : Nat) (place : String)
    (words : List Word) (hplace : place.toList = written words) :
    spaced ("  wire" ++ (if width = 1 then "" else " width " ++ toString width) ++ place ++ " " ++
      identifier name) = written ([.blank, .blank, .keyword .wire] ++
        (Line.widthWords width ++ (words ++ [.name name]))) := by
  unfold Line.widthWords
  split
  · simp [spaced, hplace, written, Word.text, Keyword.text]
  · simp only [written, List.flatMap_append, List.flatMap_cons, Word.text_number] at hplace ⊢
    simp [spaced, hplace, Word.text, Keyword.text]

theorem map_spaced_wireLines (name : String) (w : Wire) :
    (wireLines name w).map spaced = (Line.ofWire name w).map Line.spaced := by
  have hattributes := map_spaced_attributeLines true w.attributes
  rw [if_pos rfl] at hattributes
  rw [wireLines, Line.ofWire, List.map_append, List.map_append, hattributes, List.map_singleton,
    List.map_singleton]
  refine congrArg (fun line => _ ++ [line]) ?_
  rcases w.direction with _ | _ | _
  · exact spaced_wire name w.width "" [] rfl
  · apply spaced_wire name w.width _ [.keyword .input, .number w.portId]
    simp only [written, List.flatMap_cons, Word.text_number]
    simp [Word.text, Keyword.text]
  · apply spaced_wire name w.width _ [.keyword .output, .number w.portId]
    simp only [written, List.flatMap_cons, Word.text_number]
    simp [Word.text, Keyword.text]

theorem spaced_append_signal (m : Module) (start : String) {words : List Word} (s : Signal)
    (h : spaced start = written words) :
    spaced (start ++ " " ++ signal m s) = written (words ++ signalWords m.wires s) := by
  rw [written_append, ← h, ← cons_signal]
  simp [spaced]

theorem map_spaced_cellLines (m : Module) (name : String) (c : Cell) :
    (cellLines m name c).map spaced = (Line.ofCell m.wires name c).map Line.spaced := by
  have hattributes := map_spaced_attributeLines true c.attributes
  rw [if_pos rfl] at hattributes
  have hcell : spaced ("  cell " ++ identifier c.type ++ " " ++ identifier name) =
      (Line.cell c.type name).spaced := by
    simp [spaced, Line.spaced, Line.words, written, Word.text, Keyword.text]
  have hparam (name : String) (value : Param) :
      spaced ("    parameter " ++ identifier name ++ " " ++ constant value) =
        (Line.param name value).spaced := by
    simp only [Line.spaced, Line.words, written, List.flatMap_cons, Word.text_ofParam]
    simp [spaced, Word.text, Keyword.text]
  have hport (port : String) (s : Signal) :
      spaced ("    connect " ++ identifier port ++ " " ++ signal m s) =
        (Line.port port (signalWords m.wires s)).spaced := by
    apply spaced_append_signal m _ s
    simp [spaced, written, Word.text, Keyword.text]
  have hend : spaced "  end" = Line.cellEnd.spaced := by decide
  simp only [cellLines, Line.ofCell, Line.ofParams, Line.ofPorts, List.map_append, List.map_cons,
    List.map_map, hattributes, List.map_nil, List.append_assoc, List.cons_append, List.nil_append, hcell, hend]
  simp only [Function.comp_def, hparam, hport]

theorem spaced_connection (m : Module) (connection : Signal × Signal) :
    spaced ("  connect " ++ signal m connection.1 ++ " " ++ signal m connection.2) =
      (Line.ofConnection m.wires connection).spaced := by
  have hdriven : spaced ("  connect " ++ signal m connection.1) =
      written ([.blank, .blank, .keyword .connect] ++ signalWords m.wires connection.1) :=
    spaced_append_signal m "  connect" connection.1 (by decide)
  rw [Line.ofConnection, Line.spaced, Line.words, ← List.append_assoc]
  exact spaced_append_signal m _ connection.2 hdriven

theorem spaced_top : spaced "attribute \\top 1" = (Line.attr false "top" (.ofInt 1)).spaced := by
  have hone : Word.ofParam (.ofInt 1) = .number 1 := by decide
  have hname : identifier "top" = "\\top" := by simp [identifier]
  rw [Line.spaced, Line.words, hone]
  simp only [written, Word.text, Keyword.text, hname, List.flatMap_cons, List.flatMap_nil]
  decide

theorem map_spaced_designLines (d : Design) :
    (designLines d).map spaced = (Line.ofDesign d).map Line.spaced := by
  have hmodule (name : String) : spaced ("module " ++ identifier name) = (Line.module name).spaced := by
    simp [spaced, Line.spaced, Line.words, written, Word.text, Keyword.text]
  have hend : spaced "end" = Line.moduleEnd.spaced := by decide
  rw [designLines, Line.ofDesign, List.map_flatMap, List.map_flatMap]
  apply List.flatMap_congr
  rintro ⟨name, m⟩ -
  have hattributes := map_spaced_attributeLines false m.attributes
  rw [if_neg Bool.false_ne_true] at hattributes
  simp only [moduleLines, Line.ofModule, Line.ofHeading, Line.ofWires, Line.ofCells,
    Line.ofConnections, List.map_append, List.map_cons, List.map_flatMap, List.map_map, List.map_nil,
    hattributes, List.append_assoc, List.cons_append, List.nil_append, hmodule, hend,
    map_spaced_wireLines, map_spaced_cellLines]
  simp only [Function.comp_def, spaced_connection, apply_ite (List.map spaced),
    apply_ite (List.map Line.spaced), List.map_cons, List.map_nil, spaced_top]

end CircuitLowering.Rtlil
