import CircuitLowering.Proofs.Design.Nets
import CircuitLowering.Proofs.Design.Rtlil.Lines

/-!
# Designs whose text can be read

The text of a design is made to be read back where its names have no space, no line break and no leading
backslash, its signals stay within the wires of their modules, and nothing else looks like what the text
says of the top module or of ports.  Such designs with the same text have the same lines
(`Line.ofDesign_eq_of_text`).
-/

namespace CircuitLowering

open Rtlil

structure Wire.IsReadable (w : Wire) : Prop where
  attributes : ∀ name ∈ w.attributes.names, IsName name
  /-- The place of a wire is written with its direction. -/
  place : w.direction = none → w.portId = 0

instance (w : Wire) : Decidable w.IsReadable :=
  decidable_of_iff ((∀ name ∈ w.attributes.names, IsName name) ∧ (w.direction = none → w.portId = 0))
    ⟨fun h => ⟨h.1, h.2⟩, fun h => ⟨h.attributes, h.place⟩⟩

structure Cell.IsReadable (c : Cell) : Prop where
  type : IsName c.type
  names : ∀ name ∈ c.ports.names ++ c.params.names ++ c.attributes.names, IsName name

instance (c : Cell) : Decidable c.IsReadable :=
  decidable_of_iff
    (IsName c.type ∧ ∀ name ∈ c.ports.names ++ c.params.names ++ c.attributes.names, IsName name)
    ⟨fun h => ⟨h.1, h.2⟩, fun h => ⟨h.type, h.names⟩⟩

structure Module.IsReadable (m : Module) : Prop where
  wellFormed : m.WellFormed
  wires : ∀ entry ∈ m.wires.entries, IsName entry.1 ∧ entry.2.IsReadable
  cells : ∀ entry ∈ m.cells.entries, IsName entry.1 ∧ entry.2.IsReadable
  /-- An attribute of that name would be taken for that of the top module. -/
  attributes : ∀ name ∈ m.attributes.names, IsName name ∧ name ≠ "top"

instance (m : Module) : Decidable m.IsReadable :=
  decidable_of_iff (m.WellFormed ∧ (∀ entry ∈ m.wires.entries, IsName entry.1 ∧ entry.2.IsReadable) ∧
      (∀ entry ∈ m.cells.entries, IsName entry.1 ∧ entry.2.IsReadable) ∧
      ∀ name ∈ m.attributes.names, IsName name ∧ name ≠ "top")
    ⟨fun h => ⟨h.1, h.2.1, h.2.2.1, h.2.2.2⟩, fun h => ⟨h.wellFormed, h.wires, h.cells, h.attributes⟩⟩

structure Design.IsReadable (d : Design) : Prop where
  modules : ∀ entry ∈ d.modules.entries, IsName entry.1 ∧ entry.2.IsReadable
  top : ∀ name ∈ d.top, name ∈ d.modules.names

instance (d : Design) : Decidable d.IsReadable :=
  decidable_of_iff ((∀ entry ∈ d.modules.entries, IsName entry.1 ∧ entry.2.IsReadable) ∧
      ∀ name ∈ d.top, name ∈ d.modules.names)
    ⟨fun h => ⟨h.1, h.2⟩, fun h => ⟨h.modules, h.top⟩⟩

namespace Rtlil.Line

/-! ### Lines that can be read -/

theorem isReadable_ofAttributes {inner : Bool} {attributes : Ordered Param}
    (h : ∀ name ∈ attributes.names, IsName name) :
    ∀ l ∈ ofAttributes inner attributes, l.IsReadable := by
  intro l hl
  obtain ⟨entry, hentry, rfl⟩ := List.mem_map.mp hl
  have hname : IsName entry.1 := h entry.1 (List.mem_map_of_mem hentry)
  cases inner <;>
    simp [IsReadable, words, Readable, Word.IsReadable, Word.lead, hname]

theorem isReadable_ofWire {name : String} {w : Wire} (hname : IsName name) (h : w.IsReadable) :
    ∀ l ∈ ofWire name w, l.IsReadable := by
  intro l hl
  rw [ofWire, List.mem_append, List.mem_singleton] at hl
  rcases hl with hl | rfl
  · exact isReadable_ofAttributes h.attributes l hl
  · change Readable ([.blank, .blank, .keyword .wire] ++ (widthWords w.width ++
      (placeWords (w.direction.map (·, w.portId)) ++ [.name name])))
    unfold widthWords
    rcases w.direction with _ | _ | _ <;> split <;>
      simp [placeWords, Readable, Word.IsReadable, Word.lead, hname]

section Modules

variable {m : Module} (h : m.IsReadable)
include h

theorem isPlain_of_declares {s : Signal} (hs : ∀ b ∈ s, m.Declares b) :
    IsPlain (signalWords m.wires s) := by
  apply isPlain_signalWords
  intro name offset hmem
  obtain ⟨w, hw, -⟩ := hs _ hmem
  exact (h.wires (name, w) (Ordered.get?_eq_some_iff.mp hw)).1

theorem isReadable_ofCell {entry : String × Cell} (hentry : entry ∈ m.cells.entries) :
    ∀ l ∈ ofCell m.wires entry.1 entry.2, l.IsReadable := by
  obtain ⟨hname, hcell⟩ := h.cells entry hentry
  intro l hl
  simp only [ofCell, ofParams, ofPorts, List.mem_append, List.mem_cons, List.mem_map, List.not_mem_nil,
    or_false] at hl
  rcases hl with hl | rfl | ⟨param, hparam, rfl⟩ | ⟨port, hport, rfl⟩ | rfl
  · exact isReadable_ofAttributes (fun name hmem => hcell.names name (List.mem_append_right _ hmem)) l hl
  · simp [IsReadable, words, Readable, Word.IsReadable, Word.lead, hname, hcell.type]
  · have hparam' : IsName param.1 := hcell.names param.1 (List.mem_append_left _
      (List.mem_append_right _ (List.mem_map_of_mem hparam)))
    simp [IsReadable, words, Readable, Word.IsReadable, Word.lead, hparam']
  · have hport' : IsName port.1 := hcell.names port.1 (List.mem_append_left _
      (List.mem_append_left _ (List.mem_map_of_mem hport)))
    have hplain := isPlain_of_declares h (h.wellFormed.cells entry hentry port hport)
    apply readable_append _ hplain.readable
    simp [IsPlain, Word.IsReadable, Word.lead, hport']
  · simp [IsReadable, words, Readable, Word.IsReadable, Word.lead]

theorem isReadable_ofConnection {connection : Signal × Signal} (hmem : connection ∈ m.connections) :
    (ofConnection m.wires connection).IsReadable := by
  have hdeclares := h.wellFormed.connections connection hmem
  have hdriven := isPlain_of_declares h fun b hb => hdeclares b (List.mem_append_left _ hb)
  have hdriving := isPlain_of_declares h fun b hb => hdeclares b (List.mem_append_right _ hb)
  apply readable_append _ (readable_append hdriven hdriving.readable)
  simp [IsPlain, Word.IsReadable, Word.lead]

theorem isReadable_ofModule (top : Option String) {name : String} (hname : IsName name) :
    ∀ l ∈ ofModule top name m, l.IsReadable := by
  intro l hl
  simp only [ofModule, ofHeading, ofWires, ofCells, ofConnections, List.mem_append, List.mem_cons,
    List.mem_flatMap, List.mem_map, List.not_mem_nil, or_false] at hl
  rcases hl with (hl | hl) | rfl | ⟨entry, hentry, hl⟩ | ⟨entry, hentry, hl⟩ |
    ⟨connection, hmem, rfl⟩ | rfl
  · split at hl
    · rw [List.mem_singleton] at hl
      rw [hl]
      have htop : IsName "top" := by decide
      simp [IsReadable, words, Readable, Word.IsReadable, Word.lead, htop]
    · cases hl
  · exact isReadable_ofAttributes (fun name hname => (h.attributes name hname).1) l hl
  · simp [IsReadable, words, Readable, Word.IsReadable, Word.lead, hname]
  · exact isReadable_ofWire (h.wires entry hentry).1 (h.wires entry hentry).2 l hl
  · exact isReadable_ofCell h hentry l hl
  · exact isReadable_ofConnection h hmem
  · simp [IsReadable, words, Readable, Word.IsReadable, Word.lead]

end Modules

theorem isReadable_ofDesign {d : Design} (h : d.IsReadable) : ∀ l ∈ ofDesign d, l.IsReadable := by
  intro l hl
  obtain ⟨entry, hentry, hl⟩ := List.mem_flatMap.mp hl
  obtain ⟨hname, hm⟩ := h.modules entry hentry
  exact isReadable_ofModule hm d.top hname l hl

end Rtlil.Line

namespace Rtlil

/-! ### Texts -/

theorem isWritable_of_lt {s : Signal} (h : ∀ name offset, .wire name offset ∈ s → offset < lastOffset) :
    isWritable s = true := by
  induction s with
  | nil => rfl
  | cons a s ih =>
    cases s with
    | nil => rfl
    | cons b s =>
      have hpair : isWritablePair a b = true := by
        cases a with
        | const value => rfl
        | wire name offset =>
          cases b with
          | const value => rfl
          | wire name' offset' =>
            have hoffset := Nat.ne_of_lt (h name offset (by simp))
            have hoffset' := Nat.ne_of_lt (h name' offset' (by simp))
            simp [isWritablePair, hoffset, hoffset']
      rw [isWritable, hpair, Bool.true_and]
      exact ih fun name offset hmem => h name offset (List.mem_cons_of_mem _ hmem)

theorem isWritable_of_declares {m : Module} {s : Signal} (h : ∀ b ∈ s, m.Declares b)
    (hwidths : ∀ wire ∈ m.wires.entries, wire.2.width ≤ lastOffset) : isWritable s = true := by
  apply isWritable_of_lt
  intro name offset hmem
  obtain ⟨w, hw, hoffset⟩ := h _ hmem
  exact Nat.lt_of_lt_of_le hoffset (hwidths (name, w) (Ordered.get?_eq_some_iff.mp hw))

theorem eq_of_text {d : Design} {t : String} (h : text d = .ok t) : t = Text.lines (designLines d) := by
  unfold text at h
  split at h
  · exact (Except.ok.inj h).symm
  · cases h

theorem lines_injective {ls ls' : List String} (h : ∀ line ∈ ls, '\n' ∉ line.toList)
    (h' : ∀ line ∈ ls', '\n' ∉ line.toList) (heq : Text.lines ls = Text.lines ls') : ls = ls' := by
  have hblock {ls : List String} (h : ∀ line ∈ ls, '\n' ∉ line.toList) :
      ∀ line ∈ ls, Text.IsBlock (· == '\n') (line.toList ++ ['\n']) := by
    intro line hline
    refine ⟨line.toList, '\n', rfl, ?_, rfl⟩
    intro c hc
    rw [beq_eq_false_iff_ne]
    rintro rfl
    exact h line hline hc
  have hletters (ls : List String) :
      (Text.lines ls).toList = ls.flatMap fun line => line.toList ++ ['\n'] := by
    rw [Text.lines, String.toList_join, List.flatMap_map]
    simp
  have hflat := congrArg String.toList heq
  rw [hletters, hletters] at hflat
  apply Text.eq_of_map_eq _ (Text.map_eq_map_of_flatMap (hblock h) (hblock h') hflat)
  intro line _ line' _ hline
  exact String.toList_inj.mp (List.append_cancel_right hline)

theorem break_notMem_designLines {d : Design} (h : d.IsReadable) :
    ∀ line ∈ designLines d, '\n' ∉ line.toList := by
  intro line hline hbreak
  have hmem : spaced line ∈ (Line.ofDesign d).map Line.spaced := by
    rw [← map_spaced_designLines]
    exact List.mem_map_of_mem hline
  obtain ⟨l, hl, hspaced⟩ := List.mem_map.mp hmem
  apply break_notMem_written (Line.isReadable_ofDesign h l hl)
  change '\n' ∈ l.spaced
  rw [hspaced]
  exact List.mem_cons_of_mem _ hbreak

theorem ofDesign_eq_of_text {d d' : Design} {t : String} (h : d.IsReadable) (h' : d'.IsReadable)
    (ht : text d = .ok t) (ht' : text d' = .ok t) : Line.ofDesign d = Line.ofDesign d' := by
  have hlines := lines_injective (break_notMem_designLines h) (break_notMem_designLines h')
    ((eq_of_text ht).symm.trans (eq_of_text ht'))
  have hspaced := map_spaced_designLines d
  rw [hlines, map_spaced_designLines] at hspaced
  apply Text.eq_of_map_eq _ hspaced.symm
  intro l hl l' hl' heq
  exact Line.spaced_injective (Line.isReadable_ofDesign h l hl) (Line.isReadable_ofDesign h' l' hl') heq

end Rtlil

end CircuitLowering
