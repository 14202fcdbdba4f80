import CircuitLowering.Proofs.Design.Rtlil.Words

/-!
# Signals in words

The parts of a signal are the signal cut into pieces (`flatMap_bits_parts`), and none of them is empty.
A part of a wire is written by the name of the wire, with the positions of its first and last bit after
it unless it is the whole wire; so the words of a signal determine it only once the widths of wires are
known (`signalWords_append_inj`).
-/

namespace CircuitLowering.Rtlil

variable {wires : Ordered Wire} {name : String} {offset offset' width width' : Nat} {p p' : Part}
  {s s' : Signal} {r r' : List Word}

/-! ### Parts -/

def Part.bits : Part → Signal
  | .const bits => bits.map .const
  | .slice name offset width => (List.range' offset width).map (.wire name)

theorem Part.bits_ofBit (bit : SignalBit) : (Part.ofBit bit).bits = [bit] := by
  cases bit <;> rfl

theorem Part.bits_prepend? {bit : SignalBit} (h : p.prepend? bit = some p') :
    p'.bits = bit :: p.bits := by
  cases bit with
  | const b =>
    cases p with
    | const bits =>
      cases h
      rfl
    | slice name offset width => cases h
  | wire name offset =>
    cases p with
    | const bits => cases h
    | slice name' offset' width =>
      change (if name = name' ∧ offset + 1 = offset' then
        some (Part.slice name offset (width + 1)) else none) = some p' at h
      split at h
      · next hnext =>
        obtain ⟨rfl, rfl⟩ := hnext
        cases h
        rfl
      · cases h

theorem parts_cons (bit : SignalBit) (s : Signal) :
    (∃ p p' rest, parts s = p :: rest ∧ p.prepend? bit = some p' ∧ parts (bit :: s) = p' :: rest) ∨
      parts (bit :: s) = .ofBit bit :: parts s ∧ ∀ p ∈ (parts s).head?, p.prepend? bit = none := by
  cases hs : parts s with
  | nil => exact Or.inr ⟨by rw [parts, hs], by simp⟩
  | cons p rest =>
    cases hp : p.prepend? bit with
    | none => exact Or.inr ⟨by simp only [parts, hs, hp], by simpa using hp⟩
    | some p' => exact Or.inl ⟨p, p', rest, rfl, hp, by simp only [parts, hs, hp]⟩

/-- The parts of a signal make up the signal. -/
theorem flatMap_bits_parts (s : Signal) : (parts s).flatMap Part.bits = s := by
  induction s with
  | nil => rfl
  | cons bit s ih =>
    rcases parts_cons bit s with ⟨p, p', rest, hs, hp, h⟩ | ⟨h, -⟩
    · rw [hs, List.flatMap_cons] at ih
      rw [h, List.flatMap_cons, Part.bits_prepend? hp, List.cons_append, ih]
    · rw [h, List.flatMap_cons, Part.bits_ofBit, ih, List.singleton_append]

theorem parts_injective (h : parts s = parts s') : s = s' := by
  rw [← flatMap_bits_parts s, h, flatMap_bits_parts]

theorem bits_ne_nil (h : p ∈ parts s) : p.bits ≠ [] := by
  induction s generalizing p with
  | nil => cases h
  | cons bit s ih =>
    rcases parts_cons bit s with ⟨first, longer, rest, hs, hp, hparts⟩ | ⟨hparts, -⟩
    · rw [hparts, List.mem_cons] at h
      rcases h with rfl | h
      · rw [Part.bits_prepend? hp]
        exact List.cons_ne_nil _ _
      · exact ih (by rw [hs]; exact List.mem_cons_of_mem _ h)
    · rw [hparts, List.mem_cons] at h
      rcases h with rfl | h
      · rw [Part.bits_ofBit]
        exact List.cons_ne_nil _ _
      · exact ih h

theorem width_ne_zero (h : (Part.slice name offset width).bits ≠ []) : width ≠ 0 := by
  rintro rfl
  exact h rfl

theorem wire_mem_of_slice_mem (h : .slice name offset width ∈ parts s) : .wire name offset ∈ s := by
  have hwidth := Nat.pos_of_ne_zero (width_ne_zero (bits_ne_nil h))
  rw [← flatMap_bits_parts s, List.mem_flatMap]
  refine ⟨_, h, List.mem_map_of_mem ?_⟩
  rw [List.mem_range'_1]
  omega

/-! ### The words of a part -/

def subscript (wires : Ordered Wire) (name : String) (offset width : Nat) : List Word :=
  if offset = 0 ∧ (wires.get? name).map (·.width) = some width then []
  else if width = 1 then [.index offset]
  else [.range (offset + width - 1) offset]

def partWords (wires : Ordered Wire) : Part → List Word
  | .const bits => [.sized bits]
  | .slice name offset width => .name name :: subscript wires name offset width

theorem cons_part (m : Module) (p : Part) :
    ' ' :: (part m p).toList = written (partWords m.wires p) := by
  cases p with
  | const bits => simp [part, partWords, written, Word.text]
  | slice name offset width =>
    unfold part partWords subscript
    dsimp only
    split
    · simp [written, Word.text]
    split
    · simp [written, Word.text]
    · simp [written, Word.text]

/-- What follows a name that has no subscript. -/
def Unsubscripted (words : List Word) : Prop := ∀ w ∈ words.head?, w.lead ≠ some '['

theorem subscript_cases (wires : Ordered Wire) (name : String) (offset width : Nat) :
    (subscript wires name offset width = [] ∧ offset = 0 ∧
        (wires.get? name).map (·.width) = some width) ∨
      (subscript wires name offset width = [.index offset] ∧ width = 1) ∨
      subscript wires name offset width = [.range (offset + width - 1) offset] := by
  unfold subscript
  split
  · next hwhole => exact Or.inl ⟨rfl, hwhole⟩
  split
  · next hsingle => exact Or.inr (Or.inl ⟨rfl, hsingle⟩)
  · exact Or.inr (Or.inr rfl)

/-- The bits of a wire that are meant can be told, whatever follows. -/
theorem subscript_append_inj (hwidth : width ≠ 0) (hwidth' : width' ≠ 0) (hr : Unsubscripted r)
    (hr' : Unsubscripted r')
    (h : subscript wires name offset width ++ r = subscript wires name offset' width' ++ r') :
    offset = offset' ∧ width = width' ∧ r = r' := by
  have hbracket {w : Word} {rest : List Word} (hw : w.lead = some '[') : ¬ Unsubscripted (w :: rest) :=
    fun h => h w rfl hw
  rcases subscript_cases wires name offset width with ⟨hs, rfl, hw⟩ | ⟨hs, rfl⟩ | hs <;>
    rcases subscript_cases wires name offset' width' with ⟨hs', rfl, hw'⟩ | ⟨hs', rfl⟩ | hs' <;>
    simp only [hs, hs', List.nil_append, List.cons_append] at h
  · rw [hw, Option.some.injEq] at hw'
    exact ⟨rfl, hw', h⟩
  · exact absurd hr (h ▸ hbracket rfl)
  · exact absurd hr (h ▸ hbracket rfl)
  · exact absurd hr' (h ▸ hbracket rfl)
  · cases h
    exact ⟨rfl, rfl, rfl⟩
  · cases h
  · exact absurd hr' (h ▸ hbracket rfl)
  · cases h
  · rw [List.cons.injEq, Word.range.injEq] at h
    obtain ⟨⟨hhigh, rfl⟩, hrest⟩ := h
    exact ⟨rfl, by omega, hrest⟩

theorem partWords_append_inj (hp : p.bits ≠ []) (hp' : p'.bits ≠ []) (hr : Unsubscripted r)
    (hr' : Unsubscripted r') (h : partWords wires p ++ r = partWords wires p' ++ r') :
    p = p' ∧ r = r' := by
  cases p with
  | const bits =>
    cases p' with
    | const bits' =>
      cases h
      exact ⟨rfl, rfl⟩
    | slice name' offset' width' => cases h
  | slice name offset width =>
    cases p' with
    | const bits' => cases h
    | slice name' offset' width' =>
      simp only [partWords, List.cons_append, List.cons.injEq, Word.name.injEq] at h
      obtain ⟨rfl, h⟩ := h
      obtain ⟨rfl, rfl, rfl⟩ :=
        subscript_append_inj (width_ne_zero hp) (width_ne_zero hp') hr hr' h
      exact ⟨rfl, rfl⟩

theorem unsubscripted_partWords (wires : Ordered Wire) (p : Part) (r : List Word) :
    Unsubscripted (partWords wires p ++ r) := by
  cases p with
  | const bits =>
    rintro w ⟨⟩
    simp [Word.lead]
  | slice name offset width =>
    rintro w ⟨⟩
    simp [Word.lead]

/-! ### The words of a signal -/

def enclosed (wires : Ordered Wire) (ps : List Part) : List Word :=
  ps.flatMap (partWords wires) ++ [.closing]

def signalWords (wires : Ordered Wire) (s : Signal) : List Word :=
  match parts s with
  | [single] => partWords wires single
  | several => .opening :: enclosed wires several.reverse

theorem enclosed_append_inj {ps ps' : List Part} (hps : ∀ p ∈ ps, p.bits ≠ [])
    (hps' : ∀ p ∈ ps', p.bits ≠ []) (h : enclosed wires ps ++ r = enclosed wires ps' ++ r') :
    ps = ps' ∧ r = r' := by
  have hunsubscripted (ps : List Part) (r : List Word) : Unsubscripted (enclosed wires ps ++ r) := by
    cases ps with
    | nil =>
      rintro w ⟨⟩
      decide
    | cons p ps =>
      rw [enclosed, List.flatMap_cons, List.append_assoc, List.append_assoc]
      exact unsubscripted_partWords wires p _
  have hpart (p : Part) (ps : List Part) (r : List Word) :
      enclosed wires (p :: ps) ++ r = partWords wires p ++ (enclosed wires ps ++ r) := by
    simp [enclosed]
  have hclosing (p : Part) (r r' : List Word) : partWords wires p ++ r ≠ .closing :: r' := by
    cases p <;> rintro ⟨⟩
  induction ps generalizing ps' with
  | nil =>
    cases ps' with
    | nil =>
      cases h
      exact ⟨rfl, rfl⟩
    | cons p' ps' =>
      rw [hpart] at h
      exact absurd h.symm (hclosing _ _ _)
  | cons p ps ih =>
    cases ps' with
    | nil =>
      rw [hpart] at h
      exact absurd h (hclosing _ _ _)
    | cons p' ps' =>
      rw [hpart, hpart] at h
      obtain ⟨rfl, hrest⟩ := partWords_append_inj (hps p List.mem_cons_self)
        (hps' p' List.mem_cons_self) (hunsubscripted _ _) (hunsubscripted _ _) h
      obtain ⟨rfl, rfl⟩ := ih (fun p hp => hps p (List.mem_cons_of_mem _ hp))
        (fun p hp => hps' p (List.mem_cons_of_mem _ hp)) hrest
      exact ⟨rfl, rfl⟩

theorem signalWords_cases (wires : Ordered Wire) (s : Signal) :
    (∃ p, parts s = [p] ∧ signalWords wires s = partWords wires p) ∨
      signalWords wires s = .opening :: enclosed wires (parts s).reverse := by
  unfold signalWords
  split
  · next p hp => exact Or.inl ⟨p, hp, rfl⟩
  · exact Or.inr rfl

/-- A signal can be told, whatever follows. -/
theorem signalWords_append_inj (hr : Unsubscripted r) (hr' : Unsubscripted r')
    (h : signalWords wires s ++ r = signalWords wires s' ++ r') : s = s' ∧ r = r' := by
  have hopening (p : Part) (r r' : List Word) : partWords wires p ++ r ≠ .opening :: r' := by
    cases p <;> rintro ⟨⟩
  have hbits {s : Signal} : ∀ p ∈ (parts s).reverse, p.bits ≠ [] :=
    fun p hp => bits_ne_nil (List.mem_reverse.mp hp)
  rcases signalWords_cases wires s with ⟨p, hp, hs⟩ | hs <;>
    rcases signalWords_cases wires s' with ⟨p', hp', hs'⟩ | hs' <;>
    rw [hs, hs'] at h
  · obtain ⟨rfl, rfl⟩ := partWords_append_inj (bits_ne_nil (hp ▸ List.mem_singleton_self p))
      (bits_ne_nil (hp' ▸ List.mem_singleton_self p')) hr hr' h
    exact ⟨parts_injective (hp.trans hp'.symm), rfl⟩
  · exact absurd h (hopening _ _ _)
  · exact absurd h.symm (hopening _ _ _)
  · obtain ⟨hparts, rfl⟩ := enclosed_append_inj hbits hbits (List.cons.inj h).2
    exact ⟨parts_injective (List.reverse_inj.mp hparts), rfl⟩

theorem unsubscripted_signalWords (wires : Ordered Wire) (s : Signal) :
    Unsubscripted (signalWords wires s) := by
  rcases signalWords_cases wires s with ⟨p, -, hs⟩ | hs
  · rw [hs, ← List.append_nil (partWords wires p)]
    exact unsubscripted_partWords wires p []
  · rw [hs]
    rintro w ⟨⟩
    decide

theorem signalWords_injective (h : signalWords wires s = signalWords wires s') : s = s' := by
  rw [← List.append_nil (signalWords wires s), ← List.append_nil (signalWords wires s')] at h
  have hend : Unsubscripted [] := by rintro w ⟨⟩
  exact (signalWords_append_inj hend hend h).1

theorem signalWords_append_signalWords_inj {t t' : Signal}
    (h : signalWords wires s ++ signalWords wires t = signalWords wires s' ++ signalWords wires t') :
    s = s' ∧ t = t' := by
  obtain ⟨rfl, hrest⟩ := signalWords_append_inj (unsubscripted_signalWords wires t)
    (unsubscripted_signalWords wires t') h
  exact ⟨rfl, signalWords_injective hrest⟩

/-! ### Letters -/

theorem cons_intercalate {texts : List String} (h : texts ≠ []) :
    ' ' :: (String.intercalate " " texts).toList = texts.flatMap fun t => ' ' :: t.toList := by
  induction texts with
  | nil => exact absurd rfl h
  | cons t texts ih =>
    cases texts with
    | nil => simp
    | cons t' texts =>
      rw [String.intercalate_cons_cons, String.toList_append, String.toList_append, List.flatMap_cons,
        ← ih (List.cons_ne_nil _ _)]
      simp

theorem flatMap_part (m : Module) (ps : List Part) :
    (ps.map (part m)).flatMap (fun t => ' ' :: t.toList) =
      written (ps.flatMap (partWords m.wires)) := by
  induction ps with
  | nil => rfl
  | cons p ps ih =>
    rw [List.map_cons, List.flatMap_cons, List.flatMap_cons, written_append, ih, cons_part]

theorem cons_signal (m : Module) (s : Signal) :
    ' ' :: (signal m s).toList = written (signalWords m.wires s) := by
  unfold signal signalWords
  cases hs : parts s with
  | nil =>
    change ' ' :: "\x7b \x7d".toList = written [.opening, .closing]
    decide
  | cons p ps =>
    cases ps with
    | nil => exact cons_part m p
    | cons p' ps =>
      have hparts := flatMap_part m (p :: p' :: ps).reverse
      rw [← cons_intercalate (by simp)] at hparts
      change ' ' :: ("\x7b " ++ String.intercalate " " ((p :: p' :: ps).reverse.map (part m)) ++
        " \x7d").toList = written (.opening :: enclosed m.wires (p :: p' :: ps).reverse)
      rw [written_cons, enclosed, written_append, ← hparts, String.toList_append,
        String.toList_append]
      simp [written, Word.text]

/-! ### Properties of words -/

section

variable {P : Word → Prop}

theorem forall_mem_partWords (hsized : ∀ bits, P (.sized bits)) (hindex : ∀ offset, P (.index offset))
    (hrange : ∀ high low, P (.range high low))
    (hname : ∀ name offset width, p = .slice name offset width → P (.name name)) :
    ∀ w ∈ partWords wires p, P w := by
  cases p with
  | const bits => simpa [partWords] using hsized bits
  | slice name offset width =>
    have hname := hname name offset width rfl
    rcases subscript_cases wires name offset width with ⟨hs, -⟩ | ⟨hs, -⟩ | hs <;>
      simp [partWords, hs, hname, hindex, hrange]

theorem forall_mem_signalWords (hsized : ∀ bits, P (.sized bits)) (hindex : ∀ offset, P (.index offset))
    (hrange : ∀ high low, P (.range high low)) (hopening : P .opening) (hclosing : P .closing)
    (hname : ∀ name offset width, .slice name offset width ∈ parts s → P (.name name)) :
    ∀ w ∈ signalWords wires s, P w := by
  have hpart : ∀ p ∈ parts s, ∀ w ∈ partWords wires p, P w := by
    intro p hp
    apply forall_mem_partWords hsized hindex hrange
    rintro name offset width rfl
    exact hname name offset width hp
  rcases signalWords_cases wires s with ⟨p, hp, hs⟩ | hs
  · rw [hs]
    exact hpart p (hp ▸ List.mem_singleton_self p)
  · rw [hs]
    intro w hw
    rw [List.mem_cons, enclosed, List.mem_append, List.mem_flatMap, List.mem_singleton] at hw
    rcases hw with rfl | ⟨p, hp, hw⟩ | rfl
    · exact hopening
    · exact hpart p (List.mem_reverse.mp hp) w hw
    · exact hclosing

end

theorem isPlain_signalWords (h : ∀ name offset, .wire name offset ∈ s → IsName name) :
    IsPlain (signalWords wires s) := by
  apply forall_mem_signalWords
  case hname =>
    intro name offset width hp
    simp [Word.IsReadable, Word.lead, h name offset (wire_mem_of_slice_mem hp)]
  all_goals simp [Word.IsReadable, Word.lead]

end CircuitLowering.Rtlil
