import CircuitLowering.Blif.Statement

/-!
# Statements letter by letter

What tables, instances and declarations of models look like from their first letter to their last: every
word of a line but the first has a space before it, every line has its end, and an empty line comes last.
-/

namespace CircuitLowering

/-- The words after the first have a space before them. -/
theorem Text.words_cons (w : String) (ws : List String) :
    words (w :: ws) = w ++ String.join (ws.map (" " ++ ·)) := by
  induction ws generalizing w with
  | nil => exact String.append_empty.symm
  | cons w' ws ih =>
    rw [words, String.intercalate_cons_cons, List.map_cons, String.join_cons, String.append_assoc,
      String.append_assoc, ← ih]
    rfl

theorem Text.lines_cons (l : String) (ls : List String) : lines (l :: ls) = l ++ "\n" ++ lines ls := by
  rw [lines, List.map_cons, String.join_cons, lines]

theorem Text.lines_append (ls ls' : List String) : lines (ls ++ ls') = lines ls ++ lines ls' := by
  rw [lines, List.map_append, String.join_append, lines, lines]

namespace Blif

/-- A table: a line with the columns and the output, and a line for each row. -/
def coverText (columns : List String) (output : String) (rows : List String) : String :=
  ".names" ++ String.join (columns.map (" " ++ ·)) ++ " " ++ output ++ "\n"
    ++ String.join (rows.map (· ++ "\n")) ++ "\n"

theorem lines_namesBlock (columns : List String) (output : String) (rows : List String) :
    Text.lines (namesBlock columns output rows ++ [""]) = coverText columns output rows := by
  have hheader : Text.words (".names" :: columns ++ [output]) =
      ".names" ++ String.join (columns.map (" " ++ ·)) ++ " " ++ output := by
    simp [Text.words_cons, String.append_assoc]
  rw [namesBlock, List.cons_append, Text.lines_cons, Text.lines_append, hheader, coverText,
    ← String.append_assoc]
  rfl

/-- An instance: a line that binds formal names to actual ones, inputs before outputs, and a line for each
parameter. -/
def instanceText (model : String) (bound : List (String × String)) (params : List String) : String :=
  ".subckt " ++ model ++ String.join (bound.map fun b => " " ++ b.1 ++ "=" ++ b.2) ++ "\n"
    ++ String.join (params.map (· ++ "\n")) ++ "\n"

theorem lines_subckt (model : String) (bound : List (String × String)) (params : List String) :
    Text.lines (Text.words (".subckt" :: model :: bound.map fun b => b.1 ++ "=" ++ b.2) :: params ++ [""]) =
      instanceText model bound params := by
  have hsubckt : ".subckt " = ".subckt" ++ " " := rfl
  have hbound : (fun b : String × String => " " ++ b.1 ++ "=" ++ b.2) =
      (" " ++ ·) ∘ fun b => b.1 ++ "=" ++ b.2 := by
    funext b
    rw [Function.comp_apply, ← String.append_assoc, ← String.append_assoc]
  unfold instanceText
  rw [List.cons_append, Text.lines_cons, Text.lines_append, Text.words_cons, List.map_cons, String.join_cons,
    List.map_map, hsubckt, hbound]
  simp only [String.append_assoc]
  rfl

/-- The names of the bits of ports, one port after the other: the bare name for the one bit of a port,
or else the name with the index of the bit. -/
def bitsOf (ports : List ModelPort) : List String :=
  ports.flatMap fun p =>
    if p.size = 1 then [p.name]
    else (List.range p.size).map fun i => p.name ++ "[" ++ toString i ++ "]"

/-- A model by its ports alone. -/
def declarationText (m : Model) : String :=
  ".model " ++ m.name ++ "\n"
    ++ ".inputs" ++ String.join ((bitsOf m.inputs).map (" " ++ ·)) ++ "\n"
    ++ ".outputs" ++ String.join ((bitsOf m.outputs).map (" " ++ ·)) ++ "\n"
    ++ ".blackbox\n" ++ ".end\n" ++ "\n"

theorem blackbox_eq (m : Model) : blackbox m = declarationText m := by
  have hbits (ports : List ModelPort) : bitNames ports = bitsOf ports := rfl
  have hmodel : ".model " = ".model" ++ " " := rfl
  have hblackbox : ".blackbox\n" = ".blackbox" ++ "\n" := rfl
  have hend : ".end\n" = ".end" ++ "\n" := rfl
  unfold blackbox declarationText
  rw [hmodel, hblackbox, hend]
  simp only [Text.lines_cons, Text.words_cons, hbits, List.map_cons, List.map_nil, String.join_cons,
    String.append_assoc]
  rfl

theorem declaration_eq_ok_iff {m : Model} {text : String} :
    declaration m = .ok text ↔ m.portsFit = true ∧ text = declarationText m := by
  unfold declaration
  split
  · next hfits => simp [hfits, blackbox_eq, eq_comm]
  · next hfits => simp [hfits]

end Blif

end CircuitLowering
