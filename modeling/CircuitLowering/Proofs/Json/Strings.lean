import CircuitLowering.Json.Printer
import CircuitLowering.Json.Token
import CircuitLowering.Proofs.Text.Utf8

/-!
# Texts that are written and read

A quoted text is written character by character: with a letter after a backslash, with four digits after
a backslash, or as it is (`Escape`).  No way to write a character ends the quotes, and each is resolved to
the bytes of that character, so a quoted text is read back (`Lexer.run?_quote`).
-/

namespace CircuitLowering.Json

open Text (utf8 utf8_append utf8_ofList)

/-! ### Characters -/

/-- Whether a byte stands for itself between quotes. -/
def IsPlain (b : UInt8) : Prop := b ≠ 0x22 ∧ b ≠ 0x5c ∧ ¬ b < 0x20

instance (b : UInt8) : Decidable (IsPlain b) := inferInstanceAs (Decidable (_ ∧ _ ∧ _))

/-- The ways to write a character between quotes. -/
inductive Escape (c : Char) : List UInt8 → Prop where
  /-- By a letter of its own. -/
  | short {e b : UInt8} (he : e ≠ 0x75) (hletter : Token.shortEscape? e = some b)
      (hb : String.utf8EncodeChar c = [b]) : Escape c [0x5c, e]
  /-- By its number, in digits that stand for themselves. -/
  | unit {high low : UInt8} (hunit : Token.hexUnit? 0x30 0x30 high low = some c.toNat)
      (hc : c.toNat < 0x20) (hhigh : IsPlain high) (hlow : IsPlain low) :
      Escape c [0x5c, 0x75, 0x30, 0x30, high, low]
  | plain (hplain : ∀ b ∈ String.utf8EncodeChar c, IsPlain b) : Escape c (String.utf8EncodeChar c)

theorem hexDigit_spec {d : Nat} (h : d < 16) :
    (hexDigit d).toNat < 128 ∧ Token.hexValue? (UInt8.ofNat (hexDigit d).toNat) = some d ∧
      IsPlain (UInt8.ofNat (hexDigit d).toNat) := by
  have hall : ∀ d < 16, (hexDigit d).toNat < 128 ∧
      Token.hexValue? (UInt8.ofNat (hexDigit d).toNat) = some d ∧
      IsPlain (UInt8.ofNat (hexDigit d).toNat) := by decide
  exact hall d h

/-- A control character is written with two digits. -/
theorem escape_control {c : Char} (hc : c.toNat < 0x20) :
    Escape c (utf8 ("\\u00" ++ String.ofList [hexDigit (c.toNat / 16), hexDigit (c.toNat % 16)])) := by
  obtain ⟨hhigh, hhigh', hhighPlain⟩ := hexDigit_spec (d := c.toNat / 16) (by omega)
  obtain ⟨hlow, hlow', hlowPlain⟩ := hexDigit_spec (d := c.toNat % 16) (by omega)
  have hfront : utf8 "\\u00" = [0x5c, 0x75, 0x30, 0x30] := by decide +kernel
  rw [utf8_append, hfront, utf8_ofList, List.flatMap_cons, List.flatMap_cons, List.flatMap_nil,
    Text.utf8EncodeChar_of_lt hhigh, Text.utf8EncodeChar_of_lt hlow]
  refine .unit ?_ hc hhighPlain hlowPlain
  have hzero : Token.hexValue? 0x30 = some 0 := by decide
  simp only [Token.hexUnit?, hhigh', hlow', hzero, Option.bind_eq_bind, Option.bind_some]
  exact congrArg some (by omega)

/-- A character that stands for itself. -/
theorem escape_self {c : Char} (hquote : c ≠ '"') (hbackslash : c ≠ '\\') (hc : ¬ c < ' ') :
    Escape c (utf8 c.toString) := by
  have hbytes : utf8 c.toString = String.utf8EncodeChar c := by
    rw [Text.utf8_eq_flatMap]
    simp
  rw [hbytes]
  refine .plain fun b hb => ?_
  by_cases hlow : c.toNat < 128
  · rw [Text.utf8EncodeChar_of_lt hlow, List.mem_singleton] at hb
    subst hb
    have hall : ∀ n < 128, 0x20 ≤ n → n ≠ 0x22 → n ≠ 0x5c → IsPlain (UInt8.ofNat n) := by decide
    refine hall c.toNat hlow ?_ ?_ ?_
    · exact Nat.not_lt.mp hc
    · exact fun h => hquote (Char.toNat_inj.mp h)
    · exact fun h => hbackslash (Char.toNat_inj.mp h)
  · have hhigh := Text.le_of_mem_utf8EncodeChar (Nat.not_lt.mp hlow) hb
    have hne (n : Nat) (hn : n < 128) : b ≠ UInt8.ofNat n := by
      rintro rfl
      rw [UInt8.toNat_ofNat'] at hhigh
      omega
    refine ⟨hne 0x22 (by decide), hne 0x5c (by decide), ?_⟩
    rw [UInt8.lt_iff_toNat_lt]
    exact Nat.not_lt.mpr (Nat.le_trans (by decide) hhigh)

theorem escape_letter {c : Char} {written : String} (e b : UInt8)
    (h : utf8 written = [0x5c, e] ∧ e ≠ 0x75 ∧ Token.shortEscape? e = some b ∧
      String.utf8EncodeChar c = [b]) : Escape c (utf8 written) := by
  obtain ⟨hwritten, he, hletter, hb⟩ := h
  rw [hwritten]
  exact .short he hletter hb

theorem escape_escapeChar (c : Char) : Escape c (utf8 (escapeChar c)) := by
  unfold escapeChar
  split
  · next h => exact h ▸ escape_letter 0x22 0x22 (by decide +kernel)
  split
  · next h => exact h ▸ escape_letter 0x5c 0x5c (by decide +kernel)
  split
  · next h => exact h ▸ escape_letter 0x62 0x08 (by decide +kernel)
  split
  · next h => exact h ▸ escape_letter 0x66 0x0c (by decide +kernel)
  split
  · next h => exact h ▸ escape_letter 0x6e 0x0a (by decide +kernel)
  split
  · next h => exact h ▸ escape_letter 0x72 0x0d (by decide +kernel)
  split
  · next h => exact h ▸ escape_letter 0x74 0x09 (by decide +kernel)
  split
  · next h => exact escape_control h
  · exact escape_self ‹_› ‹_› ‹_›

/-! ### Between quotes -/

namespace Lexer

variable {c : Char} {bytes read rest : List UInt8} {tokens : List Token}

theorem run?_cons_of_step? {s s' : Lexer} {b : UInt8} (h : s.step? b = some s') (rest : List UInt8) :
    s.run? (b :: rest) = s'.run? rest := by
  rw [run?, h]

theorem run?_plain (h : ∀ b ∈ bytes, IsPlain b) (read rest : List UInt8) (tokens : List Token) :
    run? { mode := .quoted read, tokens } (bytes ++ rest) =
      run? { mode := .quoted (bytes.reverse ++ read), tokens } rest := by
  induction bytes generalizing read with
  | nil => rfl
  | cons b bytes ih =>
    obtain ⟨⟨hquote, hbackslash, hcontrol⟩, hbytes⟩ := List.forall_mem_cons.mp h
    have hstep : step? { mode := .quoted read, tokens } b =
        some { mode := .quoted (b :: read), tokens } := by
      simp only [step?, if_neg hquote, if_neg hbackslash, if_neg hcontrol]
    rw [List.cons_append, run?_cons_of_step? hstep, ih hbytes, List.reverse_cons, List.append_assoc,
      List.singleton_append]

/-- What follows a backslash is taken as it is. -/
theorem run?_backslash (b : UInt8) (read rest : List UInt8) (tokens : List Token) :
    run? { mode := .quoted read, tokens } (0x5c :: b :: rest) =
      run? { mode := .quoted (b :: 0x5c :: read), tokens } rest := rfl

/-- No way to write a character ends the quotes. -/
theorem run?_escape (h : Escape c bytes) (read rest : List UInt8) (tokens : List Token) :
    run? { mode := .quoted read, tokens } (bytes ++ rest) =
      run? { mode := .quoted (bytes.reverse ++ read), tokens } rest := by
  cases h with
  | short => exact run?_backslash _ read rest tokens
  | @unit high low _ _ hhigh hlow =>
    have hdigits : ∀ b ∈ [0x30, 0x30, high, low], IsPlain b := by
      have hzero : IsPlain 0x30 := by decide
      simp [hzero, hhigh, hlow]
    exact (run?_backslash 0x75 read ([0x30, 0x30, high, low] ++ rest) tokens).trans
      (run?_plain hdigits _ rest tokens)
  | plain hplain => exact run?_plain hplain read rest tokens

end Lexer

/-! ### Resolving escapes -/

namespace Token

variable {c : Char} {bytes : List UInt8}

/-- Whether bytes between quotes are resolved to pieces, and these are put together to `text`. -/
def Resolves (bytes : List UInt8) (text : List UInt8) : Prop :=
  ∃ pieces : List Piece,
    (∀ done rest, pieces? done (bytes ++ rest) = pieces? (pieces.reverse ++ done) rest) ∧
      ∀ done rest, bytes? done (pieces ++ rest) = bytes? (text.reverse ++ done) rest

theorem resolves_nil : Resolves [] [] := ⟨[], fun _ _ => rfl, fun _ _ => rfl⟩

theorem Resolves.append {bytes bytes' text text' : List UInt8} (h : Resolves bytes text)
    (h' : Resolves bytes' text') : Resolves (bytes ++ bytes') (text ++ text') := by
  obtain ⟨pieces, hpieces, htext⟩ := h
  obtain ⟨pieces', hpieces', htext'⟩ := h'
  refine ⟨pieces ++ pieces', fun done rest => ?_, fun done rest => ?_⟩
  · rw [List.append_assoc, hpieces, hpieces', List.reverse_append, List.append_assoc]
  · rw [List.append_assoc, htext, htext', List.reverse_append, List.append_assoc]

theorem resolves_plain (h : ∀ b ∈ bytes, IsPlain b) : Resolves bytes bytes := by
  induction bytes with
  | nil => exact resolves_nil
  | cons b bytes ih =>
    obtain ⟨⟨-, hbackslash, -⟩, hbytes⟩ := List.forall_mem_cons.mp h
    have hfirst : Resolves [b] [b] := by
      refine ⟨[.byte b], fun done rest => ?_, fun _ _ => rfl⟩
      rw [List.singleton_append, pieces?.eq_def]
      simp only [if_neg hbackslash]
      rfl
    exact hfirst.append (ih hbytes)

/-- Each way to write a character is resolved to the bytes of the character. -/
theorem resolves_escape (h : Escape c bytes) : Resolves bytes (String.utf8EncodeChar c) := by
  cases h with
  | @short e b he hletter hb =>
    refine ⟨[.byte b], fun done rest => ?_, fun done rest => ?_⟩
    · change pieces? done (0x5c :: e :: rest) = _
      rw [pieces?.eq_def]
      simp only [if_true, if_neg he, hletter]
      rfl
    · rw [hb]
      rfl
  | @unit high low hunit hc _ _ =>
    refine ⟨[.unit c.toNat], fun done rest => ?_, fun done rest => ?_⟩
    · change pieces? done (0x5c :: 0x75 :: 0x30 :: 0x30 :: high :: low :: rest) = _
      rw [pieces?.eq_def]
      simp only [if_true, hunit]
      rfl
    · have hlow : c.toNat < 0xd800 ∨ 0xe000 ≤ c.toNat := Or.inl (Nat.lt_trans hc (by decide))
      rw [List.singleton_append, bytes?.eq_def]
      simp only [if_pos hlow, reversedBytes, Char.ofNat_toNat]
  | plain hplain => exact resolves_plain hplain

theorem Resolves.ofQuoted? {body : List UInt8} {s : String} (h : Resolves body (utf8 s)) :
    ofQuoted? body = some (.string (some s)) := by
  obtain ⟨pieces, hpieces, htext⟩ := h
  have hbody : pieces? [] body = some pieces := by
    have hall := hpieces [] []
    rwa [List.append_nil, List.append_nil, pieces?, List.reverse_reverse] at hall
  have hbytes : bytes? [] pieces = some (utf8 s) := by
    have hall := htext [] []
    rwa [List.append_nil, List.append_nil, bytes?, List.reverse_reverse] at hall
  rw [Token.ofQuoted?, hbody, Option.map_some, hbytes, Option.bind_some, Text.fromUTF8?_utf8]

end Token

/-! ### Quoted texts -/

def quotedBytes (cs : List Char) : List UInt8 := cs.flatMap fun c => utf8 (escapeChar c)

theorem utf8_quote (s : String) : utf8 (quote s) = 0x22 :: (quotedBytes s.toList ++ [0x22]) := by
  have hwritten (cs : List Char) (before : String) :
      utf8 (cs.foldl (fun written c => written ++ escapeChar c) before) = utf8 before ++ quotedBytes cs := by
    induction cs generalizing before with
    | nil => exact (List.append_nil _).symm
    | cons c cs ih =>
      rw [List.foldl_cons, ih, utf8_append, List.append_assoc]
      rfl
  have hmark : utf8 "\"" = [0x22] := by decide +kernel
  rw [quote, utf8_append, hwritten, hmark, List.append_assoc,
    List.singleton_append]

theorem Token.resolves_quotedBytes (cs : List Char) :
    Resolves (quotedBytes cs) (cs.flatMap String.utf8EncodeChar) := by
  induction cs with
  | nil => exact resolves_nil
  | cons c cs ih => exact (resolves_escape (escape_escapeChar c)).append ih

namespace Lexer

theorem run?_quotedBytes (cs : List Char) (read rest : List UInt8) (tokens : List Token) :
    run? { mode := .quoted read, tokens } (quotedBytes cs ++ rest) =
      run? { mode := .quoted ((quotedBytes cs).reverse ++ read), tokens } rest := by
  induction cs generalizing read with
  | nil => rfl
  | cons c cs ih =>
    rw [quotedBytes, List.flatMap_cons, List.append_assoc, run?_escape (escape_escapeChar c)]
    refine (ih _).trans ?_
    rw [List.reverse_append, List.append_assoc]
    rfl

/-- A quoted text is one token. -/
theorem run?_quote (s : String) (rest : List UInt8) (tokens : List Token) :
    run? { tokens } (utf8 (quote s) ++ rest) = run? { tokens := .string (some s) :: tokens } rest := by
  have hresolves := Token.resolves_quotedBytes s.toList
  rw [← Text.utf8_eq_flatMap] at hresolves
  have hclose : step? { mode := .quoted ((quotedBytes s.toList).reverse ++ []), tokens } 0x22 =
      some { tokens := .string (some s) :: tokens } := by
    simp only [step?, if_true, List.append_nil, List.reverse_reverse, hresolves.ofQuoted?,
      Option.map_some]
  rw [utf8_quote, List.cons_append, List.append_assoc, List.singleton_append]
  refine Eq.trans ?_ (run?_cons_of_step? hclose rest)
  exact run?_quotedBytes s.toList [] (0x22 :: rest) tokens

end Lexer

end CircuitLowering.Json
