import CircuitLowering.Proofs.Text.Utf8
import CircuitLowering.Text.Quoted

/-!
# Reading quoted text

A quoted text is read back (`Text.Quoted.decode?_encode`), so different texts are quoted differently,
and it has only printable letters, whatever the text is made of.  A byte can be spelled in several ways, of
which writing takes one; what holds of all of them (`Text.Quoted.SpellsByte`) is what reading needs.
-/

namespace CircuitLowering.Text.Quoted

/-! ### Bytes -/

theorem digitValue?_octalDigit {n : Nat} (h : n < 8) : digitValue? (octalDigit n) = some n := by
  have hall : ∀ n < 8, digitValue? (octalDigit n) = some n := by decide
  exact hall n h

theorem printable_ofNat {n : Nat} (hlow : 0x20 ≤ n) (hhigh : n ≤ 0x7e) :
    ' ' ≤ Char.ofNat n ∧ Char.ofNat n ≤ '~' ∧ (Char.ofNat n).toNat = n := by
  have hall : ∀ n < 0x7f, 0x20 ≤ n →
      ' ' ≤ Char.ofNat n ∧ Char.ofNat n ≤ '~' ∧ (Char.ofNat n).toNat = n := by decide
  exact hall n (by omega) hlow

/-- What letters are read as one byte: a quote or a backslash after a backslash, three octal digits after a
backslash, and any other letter in itself. -/
inductive SpellsByte : List Char → UInt8 → Prop
  | quote : SpellsByte ['\\', '"'] 0x22
  | backslash : SpellsByte ['\\', '\\'] 0x5c
  | octal (b : UInt8) : SpellsByte
      ['\\', octalDigit (b.toNat / 64), octalDigit (b.toNat / 8 % 8), octalDigit (b.toNat % 8)] b
  | letter {c : Char} (hquote : c ≠ '"') (hbackslash : c ≠ '\\') (hlow : ' ' ≤ c) (hhigh : c ≤ '~') :
      SpellsByte [c] (UInt8.ofNat c.toNat)

theorem spellsByte_encodeByte (b : UInt8) : SpellsByte (encodeByte b) b := by
  unfold encodeByte
  by_cases hquote : b = 0x22
  · rw [if_pos hquote, hquote]
    exact .quote
  by_cases hbackslash : b = 0x5c
  · rw [if_neg hquote, if_pos hbackslash, hbackslash]
    exact .backslash
  rw [if_neg hquote, if_neg hbackslash]
  by_cases hprintable : 0x20 ≤ b ∧ b ≤ 0x7e
  · rw [if_pos hprintable]
    obtain ⟨hlow, hhigh, hvalue⟩ := printable_ofNat (UInt8.le_iff_toNat_le.mp hprintable.1)
      (UInt8.le_iff_toNat_le.mp hprintable.2)
    have hback : UInt8.ofNat (Char.ofNat b.toNat).toNat = b := by rw [hvalue, UInt8.ofNat_toNat]
    have hspells : SpellsByte [Char.ofNat b.toNat] (UInt8.ofNat (Char.ofNat b.toNat).toNat) := by
      refine .letter ?_ ?_ hlow hhigh
      · intro h
        rw [h] at hback
        exact hquote hback.symm
      · intro h
        rw [h] at hback
        exact hbackslash hback.symm
    rwa [hback] at hspells
  · rw [if_neg hprintable]
    exact .octal b

theorem decodeBytes?_cons {c : Char} (hquote : c ≠ '"') (hbackslash : c ≠ '\\') (hlow : ' ' ≤ c)
    (hhigh : c ≤ '~') (rest : List Char) :
    decodeBytes? (c :: rest) = (decodeBytes? rest).map (UInt8.ofNat c.toNat :: ·) := by
  have hfine : ¬ (c = '"' ∨ c = '\\' ∨ c < ' ' ∨ '~' < c) := by
    rintro (h | h | h | h)
    · exact hquote h
    · exact hbackslash h
    · exact absurd hlow (Char.not_le.mpr h)
    · exact absurd hhigh (Char.not_le.mpr h)
  rw [decodeBytes?, if_neg hfine]
  · intro h
    exact absurd h hquote
  all_goals
    intros
    contradiction

/-- Three digits after a backslash are those of one byte. -/
theorem decodeBytes?_octal (b : UInt8) (rest : List Char) :
    decodeBytes? ('\\' :: octalDigit (b.toNat / 64) :: octalDigit (b.toNat / 8 % 8) ::
      octalDigit (b.toNat % 8) :: rest) = (decodeBytes? rest).map (b :: ·) := by
  have hb : b.toNat < 256 := b.toNat_lt
  have hdigit : ∀ n < 8, octalDigit n ≠ '"' ∧ octalDigit n ≠ '\\' := by decide
  have hfirst := hdigit (b.toNat / 64) (by omega)
  have hvalue : 64 * (b.toNat / 64) + 8 * (b.toNat / 8 % 8) + b.toNat % 8 = b.toNat := by omega
  rw [decodeBytes?]
  · simp only [digitValue?_octalDigit (show b.toNat / 64 < 8 by omega),
      digitValue?_octalDigit (show b.toNat / 8 % 8 < 8 by omega),
      digitValue?_octalDigit (show b.toNat % 8 < 8 by omega), Option.bind_eq_bind, Option.bind_some,
      hvalue, if_pos hb, UInt8.ofNat_toNat]
  · intro h
    exact absurd h hfirst.1
  · intro h
    exact absurd h hfirst.2

theorem decodeBytes?_append {letters : List Char} {b : UInt8} (h : SpellsByte letters b)
    (rest : List Char) : decodeBytes? (letters ++ rest) = (decodeBytes? rest).map (b :: ·) := by
  cases h with
  | quote => rfl
  | backslash => rfl
  | octal => exact decodeBytes?_octal b rest
  | letter hquote hbackslash hlow hhigh => exact decodeBytes?_cons hquote hbackslash hlow hhigh rest

def Spelled (spelled : List (List Char × UInt8)) : Prop := ∀ s ∈ spelled, SpellsByte s.1 s.2

theorem spelled_encodeByte (bytes : List UInt8) : Spelled (bytes.map fun b => (encodeByte b, b)) := by
  intro s hs
  obtain ⟨b, -, rfl⟩ := List.mem_map.mp hs
  exact spellsByte_encodeByte b

theorem decodeBytes?_spelled {spelled : List (List Char × UInt8)} (h : Spelled spelled) :
    decodeBytes? (spelled.flatMap Prod.fst ++ ['"']) = some (spelled.map Prod.snd) := by
  induction spelled with
  | nil => rfl
  | cons s spelled ih =>
    obtain ⟨hfirst, hrest⟩ := List.forall_mem_cons.mp h
    rw [List.flatMap_cons, List.append_assoc, decodeBytes?_append hfirst, ih hrest]
    rfl

/-! ### Quotes that are not escaped -/

/-- The places of the quotes that no backslash escapes, where a backslash escapes the letter after it. -/
def openQuotes (place : Nat) : List Char → List Nat
  | '\\' :: _ :: rest => openQuotes (place + 2) rest
  | c :: rest =>
    if c = '"' then place :: openQuotes (place + 1) rest else openQuotes (place + 1) rest
  | [] => []

theorem openQuotes_cons {c : Char} (hquote : c ≠ '"') (hbackslash : c ≠ '\\') (place : Nat)
    (rest : List Char) : openQuotes place (c :: rest) = openQuotes (place + 1) rest := by
  rw [openQuotes, if_neg hquote]
  rintro d rest rfl
  exact absurd rfl hbackslash

theorem openQuotes_append {letters : List Char} {b : UInt8} (h : SpellsByte letters b) (place : Nat)
    (rest : List Char) :
    openQuotes place (letters ++ rest) = openQuotes (place + letters.length) rest := by
  cases h with
  | quote => rfl
  | backslash => rfl
  | octal =>
    have hdigit : ∀ n < 8, octalDigit n ≠ '"' ∧ octalDigit n ≠ '\\' := by decide
    obtain ⟨hquote, hbackslash⟩ := hdigit (b.toNat / 8 % 8) (by omega)
    obtain ⟨hquote', hbackslash'⟩ := hdigit (b.toNat % 8) (by omega)
    exact (openQuotes_cons hquote hbackslash _ _).trans (openQuotes_cons hquote' hbackslash' _ _)
  | letter hquote hbackslash => exact openQuotes_cons hquote hbackslash place rest

theorem openQuotes_spelled {spelled : List (List Char × UInt8)} (h : Spelled spelled) (place : Nat) :
    openQuotes place (spelled.flatMap Prod.fst ++ ['"']) =
      [place + (spelled.flatMap Prod.fst).length] := by
  induction spelled generalizing place with
  | nil => rfl
  | cons s spelled ih =>
    obtain ⟨hfirst, hrest⟩ := List.forall_mem_cons.mp h
    rw [List.flatMap_cons, List.append_assoc, openQuotes_append hfirst, ih hrest, List.length_append,
      Nat.add_assoc]

/-! ### Texts -/

theorem toList_encode (text : String) :
    (encode text).toList = '"' :: (text.toUTF8.toList.flatMap encodeByte ++ ['"']) := by
  rw [encode, String.toList_ofList]
  rfl

/-- A text is read from its bytes, however each of them is spelled. -/
theorem decode?_spelled {spelled : List (List Char × UInt8)} (h : Spelled spelled) {text : String}
    (htext : utf8 text = spelled.map Prod.snd) :
    decode? (String.ofList ('"' :: (spelled.flatMap Prod.fst ++ ['"']))) = some text := by
  unfold decode?
  rw [String.toList_ofList]
  simp only [decodeBytes?_spelled h, Option.bind_eq_bind, Option.bind_some, ← htext]
  exact fromUTF8?_utf8 text

theorem encode_eq (text : String) :
    encode text = String.ofList
      ('"' :: (((utf8 text).map fun b => (encodeByte b, b)).flatMap Prod.fst ++ ['"'])) := by
  rw [List.flatMap_map]
  rfl

theorem decode?_encode (text : String) : decode? (encode text) = some text := by
  rw [encode_eq]
  refine decode?_spelled (spelled_encodeByte _) ?_
  rw [List.map_map]
  exact (List.map_id _).symm

/-- The first letter and the last one are the only quotes that are not escaped. -/
theorem openQuotes_encode (text : String) :
    openQuotes 0 (encode text).toList = [0, (encode text).length - 1] := by
  rw [← String.length_toList, encode_eq, String.toList_ofList, openQuotes, if_pos rfl,
    openQuotes_spelled (spelled_encodeByte _), List.length_cons, List.length_append,
    List.length_singleton, Nat.add_sub_cancel, Nat.add_comm]
  intro d rest h
  exact absurd h (by decide)

theorem encode_injective {text text' : String} (h : encode text = encode text') : text = text' := by
  have hread := decode?_encode text
  rw [h, decode?_encode text', Option.some.injEq] at hread
  exact hread.symm

theorem SpellsByte.printable {letters : List Char} {b : UInt8} (h : SpellsByte letters b) {c : Char}
    (hc : c ∈ letters) : ' ' ≤ c ∧ c ≤ '~' := by
  cases h with
  | quote =>
    simp only [List.mem_cons, List.not_mem_nil, or_false] at hc
    rcases hc with rfl | rfl <;> decide
  | backslash =>
    simp only [List.mem_cons, List.not_mem_nil, or_false, or_self] at hc
    subst hc
    decide
  | octal =>
    have hb : b.toNat < 256 := b.toNat_lt
    have hdigit : ∀ n < 8, ' ' ≤ octalDigit n ∧ octalDigit n ≤ '~' := by decide
    simp only [List.mem_cons, List.not_mem_nil, or_false] at hc
    rcases hc with rfl | rfl | rfl | rfl
    · decide
    · exact hdigit _ (by omega)
    · exact hdigit _ (by omega)
    · exact hdigit _ (by omega)
  | letter hquote hbackslash hlow hhigh =>
    rw [List.mem_singleton] at hc
    rw [hc]
    exact ⟨hlow, hhigh⟩

theorem printable_of_mem_encode {text : String} {c : Char} (hc : c ∈ (encode text).toList) :
    ' ' ≤ c ∧ c ≤ '~' := by
  rw [toList_encode, List.mem_cons, List.mem_append, List.mem_singleton, List.mem_flatMap] at hc
  rcases hc with rfl | ⟨b, -, hc⟩ | rfl
  · decide
  · exact (spellsByte_encodeByte b).printable hc
  · decide

end CircuitLowering.Text.Quoted
