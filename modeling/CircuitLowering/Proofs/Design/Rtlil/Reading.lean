import CircuitLowering.Proofs.Design.Rtlil.Constants
import CircuitLowering.Proofs.Design.Rtlil.Readable
import Mathlib.Data.List.Chain

/-!
# Reading signals

The text of a signal is read word by word (`readParts?`): braces list parts, the most significant one first,
and a part is a constant, the name of a whole wire, or a name with the positions of its bits after it.  What
is read are the parts of the signal, in which no two neighbours could have been one (`readSignal?_signal`).

A wire is shown by its escaped name alone.  So a text is read where names have no spaces and where a name that
stands for a whole wire is that of equally wide wires (`Part.IsLegible`); otherwise different bits may have
one text (`not_exists_reader`).
-/

namespace CircuitLowering.Rtlil

open Text

/-! ### A reader -/

/-- Reads the position of one bit, or the positions of the highest and the lowest bit, as the lowest position
and the number of bits. -/
def readPositions? : List (List Char) → Option (Nat × Nat)
  | [position] => (readNat? position).map (·, 1)
  | [high, low] => do
    let high ← readNat? high
    let low ← readNat? low
    if low ≤ high then some (low, high + 1 - low) else none
  | _ => none

def readSubscript? : List Char → Option (Nat × Nat)
  | '[' :: letters =>
    if letters.getLast? = some ']' then readPositions? (letters.dropLast.splitOn ':') else none
  | _ => none

def widthOf? (wires : Ordered Wire) (escaped : String) : Option Nat :=
  (wires.entries.find? fun entry => identifier entry.1 = escaped).map (·.2.width)

def withSubscripts : List (List Char) → List (List Char × Option (List Char))
  | [] => []
  | [word] => [(word, none)]
  | word :: next :: rest =>
    if next.head? = some '[' then (word, some next) :: withSubscripts rest
    else (word, none) :: withSubscripts (next :: rest)

/-- Reads a word with its subscript, if it has one: the count and the bits of a constant, or an escaped name.
A name alone stands for all bits of its wire. -/
def readPart? (wires : Ordered Wire) : List Char × Option (List Char) → Option Signal
  | (word, subscript) =>
    if word.head?.any Char.isDigit then
      if subscript = none then (readSized? word).map (·.map .const) else none
    else if word.head? = some '\\' ∨ word.head? = some '$' then
      let name := String.ofList word
      match subscript with
      | none => (widthOf? wires name).map (Signal.ofWire name)
      | some subscript => (readSubscript? subscript).map fun (offset, width) =>
        (List.range' offset width).map (.wire name)
    else none

def readParts? (wires : Ordered Wire) (text : String) : Option (List Signal) :=
  let words := text.toList.splitOn ' '
  if words.head? = some ['\x7b'] then
    if words.tail.getLast? = some ['\x7d'] then
      (withSubscripts words.tail.dropLast).mapM (readPart? wires)
    else none
  else
    match withSubscripts words with
    | [single] => (readPart? wires single).map ([·])
    | _ => none

def readSignal? (wires : Ordered Wire) (text : String) : Option Signal :=
  (readParts? wires text).map fun parts => parts.reverse.flatten

/-- A bit as a text shows it, with the escaped name of its wire. -/
def escaped : SignalBit → SignalBit
  | .const value => .const value
  | .wire name offset => .wire (identifier name) offset

/-- Whether two parts, the lower one first, could have been one. -/
def Part.Merges : Part → Part → Prop
  | .const _, .const _ => True
  | .slice name offset width, .slice name' offset' _ => name = name' ∧ offset + width = offset'
  | _, _ => False

variable {m : Module} {wires : Ordered Wire} {name : String} {width : Nat} {p : Part} {s : Signal}

/-! ### Neighbouring parts -/

theorem merges_of_prepend? {bit : SignalBit} {p' q : Part} (h : p.prepend? bit = some p')
    (hmerges : p'.Merges q) : p.Merges q := by
  cases bit with
  | const b =>
    cases p with
    | const bits =>
      cases h
      cases q with
      | const bits' => trivial
      | slice name' offset' width' => exact hmerges
    | slice name offset width => cases h
  | wire name offset =>
    cases p with
    | const bits => cases h
    | slice name' offset' width =>
      change (if name = name' ∧ offset + 1 = offset' then
        some (Part.slice name offset (width + 1)) else none) = some p' at h
      split at h
      · next hnext =>
        obtain ⟨rfl, rfl⟩ := hnext
        cases h
        cases q with
        | const bits => exact hmerges
        | slice name' offset' width' =>
          obtain ⟨hname, hoffset⟩ := hmerges
          exact ⟨hname, by omega⟩
      · cases h

theorem exists_prepend?_of_merges {bit : SignalBit} (h : (Part.ofBit bit).Merges p) :
    ∃ p', p.prepend? bit = some p' := by
  cases bit with
  | const b =>
    cases p with
    | const bits => exact ⟨_, rfl⟩
    | slice name offset width => cases h
  | wire name offset =>
    cases p with
    | const bits => cases h
    | slice name' offset' width => exact ⟨_, if_pos h⟩

theorem isChain_parts (s : Signal) : (parts s).IsChain fun low high => ¬ low.Merges high := by
  induction s with
  | nil => exact .nil
  | cons bit s ih =>
    rcases parts_cons bit s with ⟨p, p', rest, hs, hp, h⟩ | ⟨h, hnone⟩
    · rw [hs, List.isChain_cons] at ih
      rw [h, List.isChain_cons]
      exact ⟨fun q hq hmerges => ih.1 q hq (merges_of_prepend? hp hmerges), ih.2⟩
    · rw [h, List.isChain_cons]
      refine ⟨fun p hp hmerges => ?_, ih⟩
      obtain ⟨p', hp'⟩ := exists_prepend?_of_merges hmerges
      rw [hnone p hp] at hp'
      cases hp'

/-! ### Whole wires -/

theorem parts_range' (name : String) (offset : Nat) (h : width ≠ 0) :
    parts ((List.range' offset width).map (.wire name)) = [.slice name offset width] := by
  induction width generalizing offset with
  | zero => exact absurd rfl h
  | succ n ih =>
    cases n with
    | zero => rfl
    | succ n =>
      rw [List.range'_succ, List.map_cons, parts, ih (offset + 1) (Nat.succ_ne_zero n)]
      simp [Part.prepend?]

theorem signal_ofWire {w : Wire} (hw : m.wires.get? name = some w) (h : w.width ≠ 0) :
    signal m (Signal.ofWire name w.width) = identifier name := by
  have hparts := parts_range' name 0 h
  rw [← List.range_eq_range'] at hparts
  simp [signal, Signal.ofWire, hparts, part, hw]

/-! ### Names -/

theorem identifier_cases (name : String) :
    identifier name = name ∧ (name.toList.head? = some '$' ∨ name.toList.head? = some '\\') ∨
      identifier name = "\\" ++ name := by
  unfold identifier
  split
  · next h =>
    rw [Bool.or_eq_true, String.startsWith_string_iff, String.startsWith_string_iff] at h
    refine Or.inl ⟨rfl, h.imp ?_ ?_⟩
    · exact List.singleton_prefix_iff_head?_eq_some.mp
    · exact List.singleton_prefix_iff_head?_eq_some.mp
  · exact Or.inr rfl

theorem head?_identifier (name : String) :
    (identifier name).toList.head? = some '$' ∨ (identifier name).toList.head? = some '\\' := by
  rcases identifier_cases name with ⟨h, hhead⟩ | h
  · rwa [h]
  · rw [h, String.toList_append]
    exact Or.inr rfl

theorem space_notMem_identifier (h : ' ' ∉ name.toList) : ' ' ∉ (identifier name).toList := by
  rcases identifier_cases name with ⟨hname, -⟩ | hname
  · rwa [hname]
  · rw [hname, String.toList_append, List.mem_append]
    rintro (hc | hc)
    · exact absurd hc (by decide)
    · exact h hc

theorem widthOf?_identifier (hwidth : (wires.get? name).map (·.width) = some width)
    (hsame : ∀ wire ∈ wires.entries, identifier wire.1 = identifier name → wire.2.width = width) :
    widthOf? wires (identifier name) = some width := by
  rw [Option.map_eq_some_iff] at hwidth
  obtain ⟨w, hw, -⟩ := hwidth
  have hmem := Ordered.get?_eq_some_iff.mp hw
  cases hfound : wires.entries.find? fun entry => identifier entry.1 = identifier name with
  | none =>
    have hnone := List.find?_eq_none.mp hfound (name, w) hmem
    simp at hnone
  | some entry =>
    have hescaped := List.find?_some hfound
    rw [widthOf?, hfound, Option.map_some,
      hsame entry (List.mem_of_find?_eq_some hfound) (by simpa using hescaped)]

/-! ### Words and subscripts -/

theorem readSubscript?_brackets (positions : List Char) :
    readSubscript? ('[' :: (positions ++ [']'])) = readPositions? (positions.splitOn ':') := by
  rw [readSubscript?, List.getLast?_concat, if_pos rfl, List.dropLast_concat]

theorem colon_notMem_toString (n : Nat) : ':' ∉ (toString n).toList := Word.notMem_toString rfl n

theorem readSubscript?_index (offset : Nat) :
    readSubscript? (Word.index offset).text.toList = some (offset, 1) := by
  rw [Word.toList_index, readSubscript?_brackets, List.splitOn_eq_singleton (colon_notMem_toString offset),
    readPositions?, readNat?_toString, Option.map_some]

theorem readSubscript?_range {high low : Nat} (h : low ≤ high) :
    readSubscript? (Word.range high low).text.toList = some (low, high + 1 - low) := by
  have hsplit : ((toString high).toList ++ ':' :: (toString low).toList).splitOn ':' =
      [(toString high).toList, (toString low).toList] := by
    rw [List.splitOn_append_cons_self, List.splitOn_eq_singleton (colon_notMem_toString high),
      List.splitOn_eq_singleton (colon_notMem_toString low)]
    rfl
  have hletters : (toString high).toList ++ ':' :: ((toString low).toList ++ [']']) =
      ((toString high).toList ++ ':' :: (toString low).toList) ++ [']'] := by
    rw [List.append_assoc, List.cons_append]
  rw [Word.toList_range, hletters, readSubscript?_brackets, hsplit, readPositions?,
    readNat?_toString, readNat?_toString]
  exact if_pos h

/-- Subscripts are found again by their first letter. -/
theorem withSubscripts_flatMap (pairs : List (List Char × Option (List Char)))
    (h : ∀ pair ∈ pairs, pair.1.head? ≠ some '[' ∧ ∀ letters ∈ pair.2, letters.head? = some '[') :
    withSubscripts (pairs.flatMap fun pair => pair.1 :: pair.2.toList) = pairs := by
  induction pairs with
  | nil => rfl
  | cons pair pairs ih =>
    obtain ⟨⟨-, hsubscript⟩, hpairs⟩ := List.forall_mem_cons.mp h
    rcases pair with ⟨word, _ | letters⟩
    · cases pairs with
      | nil => rfl
      | cons next pairs =>
        have hnext := (hpairs next List.mem_cons_self).1
        simpa [withSubscripts, hnext] using ih hpairs
    · simp [withSubscripts, hsubscript letters rfl, ih hpairs]

theorem splitOn_written {words : List Word} (h : ∀ w ∈ words, ' ' ∉ w.text.toList) :
    (written words).splitOn ' ' = [] :: words.map fun w => w.text.toList := by
  induction words using List.reverseRecOn with
  | nil => rfl
  | append_singleton words w ih =>
    have hwords := ih fun w hw => h w (List.mem_append_left _ hw)
    have hw := h w (List.mem_append_right _ List.mem_cons_self)
    have hlast : written [w] = ' ' :: w.text.toList := by
      rw [written_cons, written, List.flatMap_nil, List.append_nil]
    rw [written_append, hlast, List.splitOn_append_cons_self, hwords, List.splitOn_eq_singleton hw,
      List.map_append]
    rfl

/-! ### Reading parts -/

/-- Whether a part can be read: the name of its wire is one word, and if that is all of the part, then the
wires with the same escaped name are equally wide. -/
def Part.IsLegible (wires : Ordered Wire) : Part → Prop
  | .const _ => True
  | .slice name offset width =>
    ' ' ∉ name.toList ∧ (offset = 0 → (wires.get? name).map (·.width) = some width →
      ∀ wire ∈ wires.entries, identifier wire.1 = identifier name → wire.2.width = width)

instance (wires : Ordered Wire) (p : Part) : Decidable (p.IsLegible wires) :=
  match p with
  | .const _ => inferInstanceAs (Decidable True)
  | .slice _ _ _ => inferInstanceAs (Decidable (_ ∧ _))

/-- The word of a part with its subscript, if it has one. -/
def Part.letters (wires : Ordered Wire) : Part → List Char × Option (List Char)
  | .const bits => ((sized bits).toList, none)
  | .slice name offset width =>
    ((identifier name).toList, (subscript wires name offset width).head?.map fun w => w.text.toList)

theorem map_text_partWords (wires : Ordered Wire) (p : Part) :
    (partWords wires p).map (fun w => w.text.toList) =
      (p.letters wires).1 :: (p.letters wires).2.toList := by
  cases p with
  | const bits => rfl
  | slice name offset width =>
    rcases subscript_cases wires name offset width with ⟨hs, -⟩ | ⟨hs, -⟩ | hs <;>
      simp [partWords, Part.letters, hs, Word.text]

theorem head?_letters (wires : Ordered Wire) (p : Part) :
    (p.letters wires).1.head? ≠ some '[' ∧ (p.letters wires).1.head? ≠ some '\x7b' ∧
      ∀ letters ∈ (p.letters wires).2, letters.head? = some '[' := by
  cases p with
  | const bits =>
    obtain ⟨c, rest, hletters, hc⟩ := exists_digit_toString bits.length
    have hhead : (sized bits).toList.head? = some c := by
      rw [Word.toList_sized, hletters]
      rfl
    refine ⟨?_, ?_, by rintro _ ⟨⟩⟩ <;>
    · rw [Part.letters, hhead]
      rintro ⟨⟩
      cases hc
  | slice name offset width =>
    refine ⟨?_, ?_, ?_⟩
    · rcases head?_identifier name with h | h <;> simp [Part.letters, h]
    · rcases head?_identifier name with h | h <;> simp [Part.letters, h]
    · rcases subscript_cases wires name offset width with ⟨hs, -⟩ | ⟨hs, -⟩ | hs
      · simp [Part.letters, hs]
      · simp [Part.letters, hs, Word.toList_index]
      · simp [Part.letters, hs, Word.toList_range]

theorem readPart?_letters (hp : p.bits ≠ []) (h : p.IsLegible wires) :
    readPart? wires (p.letters wires) = some (p.bits.map escaped) := by
  cases p with
  | const bits =>
    obtain ⟨c, rest, hletters, hc⟩ := exists_digit_toString bits.length
    have hdigit : (sized bits).toList.head?.any Char.isDigit = true := by
      rw [Word.toList_sized, hletters]
      exact hc
    rw [Part.letters, readPart?, if_pos hdigit, if_pos rfl, readSized?_sized, Part.bits, List.map_map]
    rfl
  | slice name offset width =>
    have hlead : ¬ (identifier name).toList.head?.any Char.isDigit = true := by
      rcases head?_identifier name with h | h <;> rw [h] <;> decide
    have hwidth := width_ne_zero hp
    have hbits : (Part.slice name offset width).bits.map escaped =
        (List.range' offset width).map (.wire (identifier name)) := by
      rw [Part.bits, List.map_map]
      rfl
    rw [Part.letters, readPart?, if_neg hlead, if_pos (head?_identifier name).symm, hbits]
    rcases subscript_cases wires name offset width with ⟨hs, rfl, hwhole⟩ | ⟨hs, rfl⟩ | hs
    · have hread := widthOf?_identifier hwhole (h.2 rfl hwhole)
      simp [hs, hread, Signal.ofWire, List.range_eq_range']
    · simp [hs, readSubscript?_index]
    · have hle : offset ≤ offset + width - 1 := by omega
      have hread := readSubscript?_range hle
      have hcount : offset + width - 1 + 1 - offset = width := by omega
      simp [hs, hread, hcount]

/-! ### Reading signals back -/

theorem space_notMem_signalWords (h : ∀ p ∈ parts s, p.IsLegible wires) :
    ∀ w ∈ signalWords wires s, ' ' ∉ w.text.toList := by
  have hspace {w : Word} (hw : ∀ n, w ≠ .name n) (hlead : w.lead ≠ some '"') : ' ' ∉ w.text.toList :=
    Word.notMem_text_of_ne (fun n heq => absurd heq (hw n)) hlead (Or.inl rfl)
  apply forall_mem_signalWords
  case hname =>
    intro name offset width hp
    exact space_notMem_identifier (h _ hp).1
  all_goals
    intros
    apply hspace <;> simp [Word.lead]

theorem splitOn_signal (h : ∀ p ∈ parts s, p.IsLegible m.wires) :
    (signal m s).toList.splitOn ' ' = (signalWords m.wires s).map fun w => w.text.toList := by
  have hwords := splitOn_written (space_notMem_signalWords h)
  rw [← cons_signal, ← List.nil_append (' ' :: _), List.splitOn_append_cons_self, List.splitOn_nil,
    List.singleton_append] at hwords
  exact (List.cons.inj hwords).2

/-- The words of parts are those parts and their subscripts. -/
theorem withSubscripts_partWords (wires : Ordered Wire) (ps : List Part) :
    withSubscripts ((ps.flatMap (partWords wires)).map fun w => w.text.toList) =
      ps.map (Part.letters wires) := by
  have hpairs := withSubscripts_flatMap (ps.map (Part.letters wires)) (by
    intro pair hpair
    obtain ⟨p, -, rfl⟩ := List.mem_map.mp hpair
    exact ⟨(head?_letters wires p).1, (head?_letters wires p).2.2⟩)
  rw [List.flatMap_map] at hpairs
  rw [List.map_flatMap, ← hpairs]
  simp only [map_text_partWords]

theorem readParts?_signal (h : ∀ p ∈ parts s, p.IsLegible m.wires) :
    readParts? m.wires (signal m s) = some ((parts s).reverse.map fun p => p.bits.map escaped) := by
  have hread : ∀ p ∈ parts s, readPart? m.wires (p.letters m.wires) = some (p.bits.map escaped) :=
    fun p hp => readPart?_letters (bits_ne_nil hp) (h p hp)
  unfold readParts?
  dsimp only
  rw [splitOn_signal h]
  rcases signalWords_cases m.wires s with ⟨p, hp, hs⟩ | hs
  · have hsingle := withSubscripts_partWords m.wires [p]
    rw [List.flatMap_singleton] at hsingle
    have hhead : ((partWords m.wires p).map fun w => w.text.toList).head? ≠ some ['\x7b'] := by
      rw [map_text_partWords, List.head?_cons, ne_eq, Option.some.injEq]
      intro hword
      exact (head?_letters m.wires p).2.1 (by rw [hword]; rfl)
    rw [hs, if_neg hhead, hsingle, List.map_singleton, hp]
    change (readPart? m.wires (p.letters m.wires)).map ([·]) = _
    rw [hread p (hp ▸ List.mem_singleton_self p)]
    rfl
  · have htexts : (signalWords m.wires s).map (fun w => w.text.toList) =
        ['\x7b'] :: (((parts s).reverse.flatMap (partWords m.wires)).map (fun w => w.text.toList) ++
          [['\x7d']]) := by
      rw [hs, enclosed, List.map_cons, List.map_append]
      rfl
    rw [htexts, List.head?_cons, if_pos rfl, List.tail_cons, List.getLast?_concat, if_pos rfl,
      List.dropLast_concat, withSubscripts_partWords]
    exact mapM_map_eq_some fun p hp => hread p (List.mem_reverse.mp hp)

theorem flatten_map_escaped (s : Signal) :
    ((parts s).map fun p => p.bits.map escaped).flatten = s.map escaped := by
  conv_rhs => rw [← flatMap_bits_parts s, List.map_flatMap]
  rfl

/-- No neighbouring parts of a signal could have been one: not two constants, and not two parts of one wire
where the second begins right above the first.  A signal within wires that have at most as many bits as
can be counted has a text.  From the text of a signal that has one and whose parts are legible, those parts
are read, and so exactly its bits, each bit of a wire by the escaped name and the offset. -/
theorem readSignal?_signal (m : Module) (s : Signal) :
    ((parts s).IsChain fun low high => ¬ low.Merges high) ∧
      ((∀ b ∈ s, m.Declares b) → (∀ wire ∈ m.wires.entries, wire.2.width ≤ lastOffset) →
        isWritable s = true) ∧
      (isWritable s = true → (∀ p ∈ parts s, p.IsLegible m.wires) →
        readParts? m.wires (signal m s) = some ((parts s).reverse.map fun p => p.bits.map escaped) ∧
        readSignal? m.wires (signal m s) = some (s.map escaped)) := by
  refine ⟨isChain_parts s, isWritable_of_declares, fun _ h => ?_⟩
  have hparts := readParts?_signal h
  refine ⟨hparts, ?_⟩
  rw [readSignal?, hparts, Option.map_some, ← List.map_reverse, List.reverse_reverse, flatten_map_escaped]

def slicedModule : Module := { wires := .ofList [("a", { width := 4 }), ("b", { width := 2 })] }

/-- A bit of a wire, ascending bits of that wire, a constant and another wire. -/
theorem readSignal?_signal_slices :
    isWritable [.wire "a" 3, .wire "a" 1, .wire "a" 2, .const .one, .wire "b" 0, .wire "b" 1] = true ∧
      readSignal? slicedModule.wires "\x7b \\b 1'1 \\a [2:1] \\a [3] \x7d" = some [.wire "\\a" 3,
        .wire "\\a" 1, .wire "\\a" 2, .const .one, .wire "\\b" 0, .wire "\\b" 1] := by
  obtain ⟨-, hwritable, hread⟩ := readSignal?_signal slicedModule
    [.wire "a" 3, .wire "a" 1, .wire "a" 2, .const .one, .wire "b" 0, .wire "b" 1]
  have htext : signal slicedModule
      [.wire "a" 3, .wire "a" 1, .wire "a" 2, .const .one, .wire "b" 0, .wire "b" 1] =
        "\x7b \\b 1'1 \\a [2:1] \\a [3] \x7d" := by
    decide +kernel
  have hdeclared := hwritable (by decide) (by decide)
  refine ⟨hdeclared, ?_⟩
  rw [← htext, (hread hdeclared (by decide +kernel)).2]
  decide +kernel

def ReadsBack (m : Module) (read : String → Option Signal) : Prop :=
  ∀ s, (∀ b ∈ s, m.Declares b) → read (signal m s) = some (s.map escaped)

/-- Different signals with one text are not read back. -/
theorem not_readsBack_of_signal_eq {s' : Signal} (hs : ∀ b ∈ s, m.Declares b)
    (hs' : ∀ b ∈ s', m.Declares b) (htext : signal m s = signal m s')
    (hne : s.map escaped ≠ s'.map escaped) : ¬ ∃ read, ReadsBack m read := by
  rintro ⟨read, hread⟩
  have h := hread s hs
  rw [htext, hread s' hs', Option.some.injEq] at h
  exact hne h.symm

/-- Whatever reads the texts of a module, it cannot tell wires of different widths with one escaped name. -/
theorem not_readsBack_of_identifier_eq {name' : String} {w w' : Wire} (hw : m.wires.get? name = some w)
    (hw' : m.wires.get? name' = some w') (hidentifier : identifier name = identifier name')
    (hzero : w.width ≠ 0) (hzero' : w'.width ≠ 0) (hwidth : w.width ≠ w'.width) :
    ¬ ∃ read, ReadsBack m read := by
  have htext : signal m (Signal.ofWire name w.width) = signal m (Signal.ofWire name' w'.width) := by
    rw [signal_ofWire hw hzero, signal_ofWire hw' hzero', hidentifier]
  refine not_readsBack_of_signal_eq (fun _ => Module.declares_of_mem_ofWire hw)
    (fun _ => Module.declares_of_mem_ofWire hw') htext fun hsame => hwidth ?_
  simpa [Signal.ofWire] using congrArg List.length hsame

/-- Wires with one escaped name. -/
def aliasedModule : Module := { wires := .ofList [("x", { width := 2 }), ("\\x", { width := 1 })] }

/-- A wire whose name looks like a bit of another wire. -/
def spacedModule : Module := { wires := .ofList [("a", { width := 2 }), ("a [0]", { width := 1 })] }

/-- Whatever reads a text, it cannot tell two wires of different widths that have one escaped name, nor a
bit of a wire from a wire with the name of that bit. -/
theorem not_exists_reader :
    (¬ ∃ read, ReadsBack aliasedModule read) ∧ ¬ ∃ read, ReadsBack spacedModule read := by
  constructor
  · have hidentifier : identifier "x" = identifier "\\x" := by decide +kernel
    exact not_readsBack_of_identifier_eq rfl rfl hidentifier (by decide) (by decide) (by decide)
  · have htext : signal spacedModule [.wire "a" 0] = signal spacedModule [.wire "a [0]" 0] := by
      decide +kernel
    exact not_readsBack_of_signal_eq (by decide) (by decide) htext (by decide +kernel)

end CircuitLowering.Rtlil
