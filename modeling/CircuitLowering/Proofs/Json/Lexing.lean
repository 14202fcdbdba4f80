import CircuitLowering.Proofs.Json.Numbers
import CircuitLowering.Proofs.Json.Strings

/-!
# Written values as tokens

The compact form of a value is cut into the tokens of the value (`Lexer.cuts_compact`).  A word has no
mark at its end, so it takes what follows to end it: a comma, a closing bracket or the end of the text.
-/

namespace CircuitLowering.Json

open Text (utf8 utf8_append)

/-! ### Values that are written -/

/-- Whether a value is one that the writers of records make: its texts denote texts and its numbers are
integers. -/
inductive Writable : Json → Prop where
  | null : Writable .null
  | bool (b : Bool) : Writable (.bool b)
  | number {n : Number} (h : n.IsInteger) : Writable (.number n)
  | text (s : String) : Writable (.text s)
  | array {items : List Json} (h : ∀ item ∈ items, Writable item) : Writable (.array items)
  | record {fields : List (String × Json)} (h : ∀ field ∈ fields, Writable field.2) :
      Writable (.record fields)

mutual

def tokens : Json → List Token
  | null => [.null]
  | bool b => [.bool b]
  | number n => [.number n]
  | string t => [.string t]
  | array items => .arrayOpen :: ([.comma].intercalate (itemTokens items) ++ [.arrayClose])
  | object fields => .objectOpen :: ([.comma].intercalate (fieldTokens fields) ++ [.objectClose])

def itemTokens : List Json → List (List Token)
  | [] => []
  | item :: rest => tokens item :: itemTokens rest

def fieldTokens : List (Option String × Json) → List (List Token)
  | [] => []
  | (name, value) :: rest => (.string name :: .colon :: tokens value) :: fieldTokens rest

end

theorem itemTokens_eq (items : List Json) : itemTokens items = items.map tokens := by
  induction items with
  | nil => rfl
  | cons item items ih => rw [itemTokens, ih, List.map_cons]

theorem compactItems_eq (items : List Json) : compactItems items = items.map compact := by
  induction items with
  | nil => rfl
  | cons item items ih => rw [compactItems, ih, List.map_cons]

def namedTokens (f : String × Json) : List Token := .string (some f.1) :: .colon :: tokens f.2

theorem tokens_record (fields : List (String × Json)) :
    tokens (.record fields) =
      .objectOpen :: ([.comma].intercalate (fields.map namedTokens) ++ [.objectClose]) := by
  have hfields : fieldTokens (fields.map fun f => (some f.1, f.2)) = fields.map namedTokens := by
    induction fields with
    | nil => rfl
    | cons f fields ih => rw [List.map_cons, fieldTokens, ih, List.map_cons, namedTokens]
  rw [record, tokens, hfields]

theorem compact_record (fields : List (String × Json)) :
    compact (.record fields) = "\x7b" ++
      ",".intercalate (fields.map fun f => quote f.1 ++ ":" ++ compact f.2) ++ "\x7d" := by
  have hfields : compactFields (fields.map fun f => (some f.1, f.2)) =
      fields.map fun f => quote f.1 ++ ":" ++ compact f.2 := by
    induction fields with
    | nil => rfl
    | cons f fields ih => rw [List.map_cons, compactFields, ih, List.map_cons, Option.getD_some]
  rw [record, compact, hfields]

namespace Lexer

variable {text text' : String} {ts ts' : List Token} {rest : List UInt8}

/-! ### Cutting a text into tokens -/

/-- Whether a text that is followed by `rest` is cut into tokens, whatever comes before it. -/
def Cuts (text : String) (ts : List Token) (rest : List UInt8) : Prop :=
  ∀ before, run? { tokens := before } (utf8 text ++ rest) =
    run? { tokens := ts.reverse ++ before } rest

/-- Whether what follows a word ends it. -/
def EndsWord (rest : List UInt8) : Prop := ∀ b ∈ rest.head?, Token.isWordByte b = false

theorem endsWord_nil : EndsWord [] := fun _ hb => nomatch hb

theorem cuts_empty (rest : List UInt8) : Cuts "" [] rest := by
  intro before
  rw [Text.utf8_eq_flatMap]
  rfl

theorem Cuts.append (h : Cuts text ts (utf8 text' ++ rest)) (h' : Cuts text' ts' rest) :
    Cuts (text ++ text') (ts ++ ts') rest := by
  intro before
  rw [utf8_append, List.append_assoc, h, h', List.reverse_append, List.append_assoc]

theorem cuts_quote (s : String) (rest : List UInt8) : Cuts (quote s) [.string (some s)] rest :=
  fun before => run?_quote s rest before

/-! ### Marks -/

structure IsMark (text : String) (t : Token) (b : UInt8) : Prop where
  bytes : utf8 text = [b]
  step : ∀ before : List Token, start? before b = some { tokens := t :: before }
  endsWord : Token.isWordByte b = false

theorem isMark_comma : IsMark "," .comma 0x2c := ⟨by decide +kernel, fun _ => rfl, by decide⟩

theorem isMark_colon : IsMark ":" .colon 0x3a := ⟨by decide +kernel, fun _ => rfl, by decide⟩

theorem isMark_arrayOpen : IsMark "[" .arrayOpen 0x5b := ⟨by decide +kernel, fun _ => rfl, by decide⟩

theorem isMark_arrayClose : IsMark "]" .arrayClose 0x5d := ⟨by decide +kernel, fun _ => rfl, by decide⟩

theorem isMark_objectOpen : IsMark "\x7b" .objectOpen 0x7b :=
  ⟨by decide +kernel, fun _ => rfl, by decide⟩

theorem isMark_objectClose : IsMark "\x7d" .objectClose 0x7d :=
  ⟨by decide +kernel, fun _ => rfl, by decide⟩

theorem IsMark.cuts {t : Token} {b : UInt8} (h : IsMark text t b) (rest : List UInt8) :
    Cuts text [t] rest := by
  intro before
  rw [h.bytes, List.singleton_append]
  exact run?_cons_of_step? (s := { tokens := before }) (h.step before) rest

theorem IsMark.endsWord_append {t : Token} {b : UInt8} (h : IsMark text t b) (rest : List UInt8) :
    EndsWord (utf8 text ++ rest) := by
  rw [h.bytes]
  intro other hother
  cases hother
  exact h.endsWord

/-! ### Words -/

def IsWordChar (c : Char) : Prop := c.toNat < 128 ∧ Token.isWordByte (UInt8.ofNat c.toNat) = true

instance (c : Char) : Decidable (IsWordChar c) := inferInstanceAs (Decidable (_ ∧ _))

def IsWord (cs : List Char) : Prop := ∀ c ∈ cs, IsWordChar c

-- It is decided along the list, not over all characters there are.
instance (cs : List Char) : Decidable (IsWord cs) := List.decidableBAll IsWordChar cs

theorem start?_of_isWordByte {b : UInt8} (h : Token.isWordByte b = true) (before : List Token) :
    start? before b = some { mode := .word [b], tokens := before } := by
  have hne (b' : UInt8) (hb' : Token.isWordByte b' = false) : b ≠ b' := by
    rintro rfl
    rw [h] at hb'
    cases hb'
  have hblank : Token.isBlank b = false := by
    simp only [Token.isBlank, Bool.or_eq_false_iff, beq_eq_false_iff_ne]
    exact ⟨⟨⟨hne _ (by decide), hne _ (by decide)⟩, hne _ (by decide)⟩, hne _ (by decide)⟩
  rw [start?, if_neg (by simp [hblank]), if_neg (hne _ (by decide)), if_pos h]

theorem run?_word {bytes : List UInt8} (h : ∀ b ∈ bytes, Token.isWordByte b = true)
    (read rest : List UInt8) (before : List Token) :
    run? { mode := .word read, tokens := before } (bytes ++ rest) =
      run? { mode := .word (bytes.reverse ++ read), tokens := before } rest := by
  induction bytes generalizing read with
  | nil => rfl
  | cons b bytes ih =>
    obtain ⟨hb, hbytes⟩ := List.forall_mem_cons.mp h
    have hstep : step? { mode := .word read, tokens := before } b =
        some { mode := .word (b :: read), tokens := before } := if_pos hb
    rw [List.cons_append, run?_cons_of_step? hstep, ih hbytes, List.reverse_cons, List.append_assoc,
      List.singleton_append]

/-- A word is closed by what ends it, which is then read as after any token. -/
theorem run?_closeWord {read rest : List UInt8} {before after : List Token} (hrest : EndsWord rest)
    (h : closeWord? read before = some after) :
    run? { mode := .word read, tokens := before } rest = run? { tokens := after } rest := by
  cases rest with
  | nil =>
    change (closeWord? read before).map List.reverse = some after.reverse
    rw [h, Option.map_some]
  | cons b rest =>
    have hstep : step? { mode := .word read, tokens := before } b = step? { tokens := after } b := by
      simp only [step?, hrest b rfl, Bool.false_eq_true, if_false, h, Option.bind_some]
    rw [run?, run?, hstep]

theorem cuts_word {t : Token} (hne : text.toList ≠ []) (hword : IsWord text.toList)
    (ht : Token.ofWord? text.toList = some t) (hrest : EndsWord rest) : Cuts text [t] rest := by
  intro before
  have hbytes : utf8 text = text.toList.map fun c => UInt8.ofNat c.toNat := by
    rw [Text.utf8_eq_flatMap, List.map_eq_flatMap]
    exact List.flatMap_congr fun c hc => Text.utf8EncodeChar_of_lt (hword c hc).1
  have hall : ∀ b ∈ utf8 text, Token.isWordByte b = true := by
    rw [hbytes, List.forall_mem_map]
    exact fun c hc => (hword c hc).2
  have hclose : closeWord? (utf8 text).reverse before = some (t :: before) := by
    have hback : (utf8 text).map (fun b => Char.ofNat b.toNat) = text.toList := by
      rw [hbytes, List.map_map]
      refine (List.map_congr_left fun c hc => ?_).trans (List.map_id _)
      have hlow : c.toNat < 2 ^ 8 := Nat.lt_trans (hword c hc).1 (by decide)
      rw [Function.comp_apply, UInt8.toNat_ofNat', Nat.mod_eq_of_lt hlow, Char.ofNat_toNat, id]
    rw [closeWord?, List.reverse_reverse, hback, ht, Option.map_some]
  cases hcons : utf8 text with
  | nil =>
    rw [hbytes, List.map_eq_nil_iff] at hcons
    exact absurd hcons hne
  | cons b bytes =>
    rw [hcons] at hall hclose
    obtain ⟨hb, htail⟩ := List.forall_mem_cons.mp hall
    have hstart : step? { tokens := before } b = some { mode := .word [b], tokens := before } :=
      start?_of_isWordByte hb before
    rw [List.cons_append, run?_cons_of_step? hstart, run?_word htail, ← List.reverse_cons]
    exact run?_closeWord hrest hclose

theorem cuts_number {n : Number} (h : n.IsInteger) (hrest : EndsWord rest) :
    Cuts n.render [.number n] rest := by
  have hread := Number.read?_render h
  have hne (word : List Char) (hword : Number.read? word = none) : n.render.toList ≠ word := by
    intro heq
    rw [heq, hword] at hread
    cases hread
  refine cuts_word (hne [] (by decide)) ?_ ?_ hrest
  · have hdigit (c : Char) (hc : c ∈ Nat.toDigits 10 n.whole) : IsWordChar c := by
      have hall : ∀ k < 58, 48 ≤ k → Token.isWordByte (UInt8.ofNat k) = true := by decide
      have hc := Char.isDigit_iff_toNat.mp (Nat.isDigit_of_mem_toDigits (by decide) (by decide) hc)
      have hlow : 48 ≤ c.toNat := hc.1
      have hhigh : c.toNat ≤ 57 := hc.2
      exact ⟨by omega, hall c.toNat (by omega) hlow⟩
    rw [Number.toList_render h, IsWord, List.forall_mem_append]
    refine ⟨?_, hdigit⟩
    cases n.negative with
    | true => exact (by decide : IsWord ['-'])
    | false => exact fun c hc => nomatch hc
  · rw [Token.ofWord?, if_neg (hne _ (by decide)), if_neg (hne _ (by decide)),
      if_neg (hne _ (by decide)), hread, Option.map_some]

/-! ### Whole values -/

/-- Parts with commas between them are cut into the tokens of the parts with commas between them. -/
theorem cuts_intercalate {α : Type} (written : α → String) (cut : α → List Token) {parts : List α}
    (h : ∀ part ∈ parts, ∀ rest, EndsWord rest → Cuts (written part) (cut part) rest)
    (hrest : EndsWord rest) :
    Cuts (",".intercalate (parts.map written)) ([.comma].intercalate (parts.map cut)) rest := by
  induction parts with
  | nil => exact cuts_empty rest
  | cons part parts ih =>
    obtain ⟨hpart, hparts⟩ := List.forall_mem_cons.mp h
    cases parts with
    | nil =>
      rw [List.map_singleton, List.map_singleton, String.intercalate_singleton,
        List.intercalate_singleton]
      exact hpart rest hrest
    | cons part' parts =>
      rw [List.map_cons, List.map_cons, List.map_cons, List.map_cons, String.intercalate_cons_cons,
        List.intercalate_cons_cons]
      refine Cuts.append ?_ (ih hparts)
      exact (hpart _ (isMark_comma.endsWord_append _)).append (isMark_comma.cuts _)

/-- The compact form of a value is cut into the tokens of the value. -/
theorem cuts_compact {j : Json} (hj : Writable j) (hrest : EndsWord rest) :
    Cuts j.compact j.tokens rest := by
  induction hj generalizing rest with
  | null =>
    rw [compact, Json.tokens]
    exact cuts_word (by decide +kernel) (by decide +kernel) (by decide +kernel) hrest
  | bool b =>
    rw [compact, Json.tokens]
    cases b with
    | true => exact cuts_word (by decide +kernel) (by decide +kernel) (by decide +kernel) hrest
    | false => exact cuts_word (by decide +kernel) (by decide +kernel) (by decide +kernel) hrest
  | number h => exact cuts_number h hrest
  | text s => exact cuts_quote s rest
  | @array items _ ih =>
    rw [compact, Json.tokens, compactItems_eq, itemTokens_eq, ← List.singleton_append,
      ← List.append_assoc]
    refine Cuts.append (Cuts.append (isMark_arrayOpen.cuts _) ?_) (isMark_arrayClose.cuts rest)
    exact cuts_intercalate compact Json.tokens (fun item hitem _ => ih item hitem)
      (isMark_arrayClose.endsWord_append rest)
  | @record fields _ ih =>
    rw [compact_record, tokens_record, ← List.singleton_append, ← List.append_assoc]
    refine Cuts.append (Cuts.append (isMark_objectOpen.cuts _) ?_) (isMark_objectClose.cuts rest)
    refine cuts_intercalate _ _ ?_ (isMark_objectClose.endsWord_append rest)
    intro f hf rest hrest
    exact ((cuts_quote f.1 _).append (isMark_colon.cuts _)).append (ih f hf hrest)

end Lexer

/-- The compact form of a value has the tokens of the value. -/
theorem tokens?_compact {j : Json} (hj : Writable j) : tokens? (utf8 j.compact) = some j.tokens := by
  have hcuts := Lexer.cuts_compact hj Lexer.endsWord_nil []
  rw [List.append_nil, List.append_nil] at hcuts
  rw [tokens?, hcuts, Lexer.run?, Lexer.finish?, List.reverse_reverse]

end CircuitLowering.Json
