import CircuitLowering.Design.Rtlil
import CircuitLowering.Proofs.Bits
import CircuitLowering.Proofs.Text.Digits
import CircuitLowering.Proofs.Text.Marks
import CircuitLowering.Proofs.Text.Quoted

/-!
# Words of RTLIL text

A line of RTLIL text is a list of words with a space before each; an indent is a list of empty words.
The first letter of a word tells what it is, and different words are written differently
(`Word.text_injective`).  Since only a quoted text has spaces in it, and it ends its line, the words of a
line can be told from its letters (`written_injective`).

A name has no space, no line break and no leading backslash; the latter would be taken for the escape of
another name.
-/

namespace CircuitLowering.Rtlil

open Text

/-! ### Names -/

/-- A name that is written in one word, as no other name is. -/
def IsName (name : String) : Prop :=
  ' ' ∉ name.toList ∧ '\n' ∉ name.toList ∧ name.toList.head? ≠ some '\\'

instance (name : String) : Decidable (IsName name) :=
  inferInstanceAs (Decidable (_ ∧ _ ∧ _))

theorem toList_identifier {name : String} (h : IsName name) :
    (identifier name).toList = name.toList ∧ name.toList.head? = some '$' ∨
      (identifier name).toList = '\\' :: name.toList ∧ name.toList.head? ≠ some '$' := by
  have hdollar : name.startsWith "$" = true ↔ name.toList.head? = some '$' := by
    rw [String.startsWith_string_iff]
    exact List.singleton_prefix_iff_head?_eq_some
  have hbackslash : ¬ name.startsWith "\\" = true := by
    rw [String.startsWith_string_iff]
    exact fun hprefix => h.2.2 (List.singleton_prefix_iff_head?_eq_some.mp hprefix)
  unfold identifier
  by_cases hstart : name.startsWith "$" = true
  · exact Or.inl ⟨by rw [hstart, Bool.true_or, if_pos rfl], hdollar.mp hstart⟩
  · rw [Bool.not_eq_true] at hstart hbackslash
    refine Or.inr ⟨?_, fun hhead => ?_⟩
    · rw [hstart, hbackslash, Bool.false_or, if_neg Bool.false_ne_true, String.toList_append]
      rfl
    · rw [hdollar.mpr hhead] at hstart
      cases hstart

theorem identifier_injective {name name' : String} (h : IsName name) (h' : IsName name')
    (heq : identifier name = identifier name') : name = name' := by
  have hletters := congrArg String.toList heq
  rcases toList_identifier h with ⟨hname, hhead⟩ | ⟨hname, hhead⟩ <;>
    rcases toList_identifier h' with ⟨hname', hhead'⟩ | ⟨hname', hhead'⟩ <;>
    rw [hname, hname'] at hletters
  · exact String.toList_inj.mp hletters
  · rw [hletters] at hhead
    cases hhead
  · rw [← hletters] at hhead'
    cases hhead'
  · exact String.toList_inj.mp (List.cons.inj hletters).2

/-! ### Words -/

inductive Keyword where
  | attr
  | module
  | wire
  | width
  | input
  | output
  | cell
  | param
  | connect
  | close
deriving DecidableEq, Repr

def Keyword.text : Keyword → String
  | attr => "attribute"
  | module => "module"
  | wire => "wire"
  | width => "width"
  | input => "input"
  | output => "output"
  | cell => "cell"
  | param => "parameter"
  | connect => "connect"
  | close => "end"

theorem Keyword.text_injective {k k' : Keyword} (h : k.text = k'.text) : k = k' := by
  cases k <;> cases k' <;> first | rfl | exact absurd h (by decide)

inductive Word where
  | blank
  | keyword (k : Keyword)
  | name (name : String)
  | number (value : Int)
  | sized (bits : List Bit)
  | quoted (text : String)
  | index (offset : Nat)
  | range (high low : Nat)
  | opening
  | closing
deriving DecidableEq, Repr

namespace Word

def text : Word → String
  | blank => ""
  | keyword k => k.text
  | name n => identifier n
  | number value => toString value
  | sized bits => Rtlil.sized bits
  | quoted t => Quoted.encode t
  | index offset => "[" ++ toString offset ++ "]"
  | range high low => "[" ++ toString high ++ ":" ++ toString low ++ "]"
  | opening => "\x7b"
  | closing => "\x7d"

def ofParam : Param → Word
  | .bits b => if b.length = 32 then (Bits.toInt? b).elim (sized b) number else sized b
  | .text t => quoted t

theorem text_ofParam (value : Param) : (ofParam value).text = constant value := by
  cases value with
  | text t => rfl
  | bits b =>
    unfold ofParam constant
    dsimp only
    split
    · cases Bits.toInt? b <;> rfl
    · rfl

theorem text_number (n : Nat) : (number n).text = toString n := rfl

/-- The bits of a value that is not written as a text. -/
theorem bits_of_ofParam (bits : List Bit) :
    (∃ value, ofParam (.bits bits) = number value ∧ bits.length = 32 ∧ Bits.toInt? bits = some value) ∨
      ofParam (.bits bits) = sized bits := by
  by_cases hlength : bits.length = 32
  · cases hvalue : Bits.toInt? bits with
    | none => exact Or.inr (by simp [ofParam, hvalue])
    | some value => exact Or.inl ⟨value, by simp [ofParam, hlength, hvalue], hlength, rfl⟩
  · exact Or.inr (by simp [ofParam, hlength])

theorem ofParam_injective {value value' : Param} (h : ofParam value = ofParam value') :
    value = value' := by
  cases value with
  | text t =>
    cases value' with
    | text t' => exact congrArg Param.text (quoted.inj h)
    | bits b' => rcases bits_of_ofParam b' with ⟨_, h', -⟩ | h' <;> rw [h'] at h <;> cases h
  | bits b =>
    cases value' with
    | text t' => rcases bits_of_ofParam b with ⟨_, h', -⟩ | h' <;> rw [h'] at h <;> cases h
    | bits b' =>
      rcases bits_of_ofParam b with ⟨i, hb, hlength, hi⟩ | hb <;>
        rcases bits_of_ofParam b' with ⟨j, hb', hlength', hj⟩ | hb' <;>
        rw [hb, hb'] at h <;> cases h
      · exact congrArg Param.bits (Bits.toInt?_injective hlength hlength' hi hj)
      · rfl

@[simp] theorem ofParam_inj {value value' : Param} :
    ofParam value = ofParam value' ↔ value = value' :=
  ⟨ofParam_injective, congrArg ofParam⟩

/-! ### First letters -/

/-- One letter for the letters that words of one kind begin with. -/
def leadOf (c : Char) : Char :=
  if c.isDigit ∨ c = '-' then '0' else if c.isLower then 'a' else if c = '$' then '\\' else c

def lead : Word → Option Char
  | blank => none
  | keyword _ => some 'a'
  | name _ => some '\\'
  | number _ => some '0'
  | sized _ => some '0'
  | quoted _ => some '"'
  | index _ => some '['
  | range _ _ => some '['
  | opening => some '\x7b'
  | closing => some '\x7d'

/-- Whether a word can be told from its letters, as a name must be. -/
def IsReadable (w : Word) : Prop := ∀ n, w = name n → IsName n

@[simp] theorem ofParam_ne_name (value : Param) (n : String) : ofParam value ≠ name n := by
  cases value with
  | text t => rintro ⟨⟩
  | bits b => rcases bits_of_ofParam b with ⟨_, h, -⟩ | h <;> rw [h] <;> rintro ⟨⟩

theorem leadOf_of_isDigit {c : Char} (h : c.isDigit = true ∨ c = '-') : leadOf c = '0' :=
  if_pos h

theorem head?_text {w : Word} (h : w.IsReadable) : w.text.toList.head?.map leadOf = w.lead := by
  cases w with
  | blank => rfl
  | keyword k => cases k <;> decide
  | name n =>
    rcases toList_identifier (h n rfl) with ⟨hname, hhead⟩ | ⟨hname, hhead⟩
    · rw [text, hname, hhead]
      rfl
    · rw [text, hname]
      rfl
  | number value =>
    obtain ⟨c, rest, htext, hc⟩ := exists_lead_toString_int value
    rw [text, htext, List.head?_cons, Option.map_some, leadOf_of_isDigit hc]
    rfl
  | sized bits =>
    obtain ⟨c, rest, htext, hc⟩ := exists_digit_toString bits.length
    rw [text, Rtlil.sized, String.toList_append, String.toList_append, htext, List.cons_append,
      List.cons_append, List.head?_cons, Option.map_some, leadOf_of_isDigit (Or.inl hc)]
    rfl
  | quoted t =>
    rw [text, Quoted.toList_encode]
    rfl
  | index offset =>
    simp only [text, String.toList_append]
    rfl
  | range high low =>
    simp only [text, String.toList_append]
    rfl
  | opening => decide
  | closing => decide

/-! ### Different words -/

theorem toList_sized (bits : List Bit) :
    (Rtlil.sized bits).toList = (toString bits.length).toList ++ '\'' :: (Bits.render bits).toList := by
  rw [Rtlil.sized, String.toList_append, String.toList_append, List.append_assoc]
  rfl

theorem notMem_toString {c : Char} (hdigit : c.isDigit = false) (n : Nat) :
    c ∉ (toString n).toList := by
  intro hc
  rw [isDigit_of_mem_toString hc] at hdigit
  cases hdigit

theorem sized_injective {bits bits' : List Bit} (h : Rtlil.sized bits = Rtlil.sized bits') :
    bits = bits' := by
  have hletters := congrArg String.toList h
  rw [toList_sized, toList_sized] at hletters
  have hquote (n : Nat) : ∀ c ∈ (toString n).toList, (c == '\'') = false := by
    intro c hc
    rw [beq_eq_false_iff_ne]
    rintro rfl
    exact notMem_toString rfl n hc
  have hbits := (append_inj_of_marks (hquote _) (hquote _) (by simp) (by simp) hletters).2
  exact Bits.render_injective (String.toList_inj.mp (List.cons.inj hbits).2)

theorem toString_ne_sized (value : Int) (bits : List Bit) : toString value ≠ Rtlil.sized bits := by
  intro h
  have hquote : '\'' ∈ (toString value).toList := by
    rw [h, toList_sized]
    simp
  rcases isDigit_or_sign_of_mem_toString hquote with hc | hc
  · cases hc
  · cases hc

theorem toList_index (offset : Nat) :
    (index offset).text.toList = '[' :: ((toString offset).toList ++ [']']) := by
  rw [text, String.toList_append, String.toList_append, List.append_assoc]
  rfl

theorem toList_range (high low : Nat) : (range high low).text.toList =
    '[' :: ((toString high).toList ++ ':' :: ((toString low).toList ++ [']'])) := by
  simp only [text, String.toList_append, List.append_assoc]
  rfl

theorem index_injective {offset offset' : Nat} (h : (index offset).text = (index offset').text) :
    offset = offset' := by
  have hletters := congrArg String.toList h
  rw [toList_index, toList_index, List.cons.injEq, List.append_cancel_right_eq] at hletters
  exact toString_nat_injective (String.toList_inj.mp hletters.2)

theorem range_injective {high low high' low' : Nat}
    (h : (range high low).text = (range high' low').text) : high = high' ∧ low = low' := by
  have hletters := congrArg String.toList h
  rw [toList_range, toList_range, List.cons.injEq] at hletters
  have hcolon (n : Nat) : ∀ c ∈ (toString n).toList, (c == ':') = false := by
    intro c hc
    rw [beq_eq_false_iff_ne]
    rintro rfl
    exact notMem_toString rfl n hc
  obtain ⟨hhigh, hlow⟩ := append_inj_of_marks (hcolon _) (hcolon _) (by simp) (by simp) hletters.2
  rw [List.cons.injEq, List.append_cancel_right_eq] at hlow
  exact ⟨toString_nat_injective (String.toList_inj.mp hhigh),
    toString_nat_injective (String.toList_inj.mp hlow.2)⟩

theorem index_ne_range (offset high low : Nat) : (index offset).text ≠ (range high low).text := by
  intro h
  have hcolon : ':' ∈ (index offset).text.toList := by
    rw [h, toList_range]
    simp
  rw [toList_index, List.mem_cons, List.mem_append] at hcolon
  rcases hcolon with hc | hc | hc
  · cases hc
  · exact notMem_toString rfl offset hc
  · cases hc with
    | tail _ hc => cases hc

theorem text_injective {w w' : Word} (h : w.IsReadable) (h' : w'.IsReadable)
    (heq : w.text = w'.text) : w = w' := by
  have hlead : w.lead = w'.lead := by rw [← head?_text h, ← head?_text h', heq]
  -- only words with the same first letter are left
  cases w <;> cases w' <;> cases hlead
  case blank.blank => rfl
  case keyword.keyword k k' => rw [Keyword.text_injective heq]
  case name.name n n' => rw [identifier_injective (h n rfl) (h' n' rfl) heq]
  case number.number i j => rw [toString_int_injective heq]
  case number.sized i b => exact absurd heq (toString_ne_sized i b)
  case sized.number b i => exact absurd heq.symm (toString_ne_sized i b)
  case sized.sized b b' => rw [sized_injective heq]
  case quoted.quoted t t' => rw [Quoted.encode_injective heq]
  case index.index i j => rw [index_injective heq]
  case index.range i hi lo => exact absurd heq (index_ne_range i hi lo)
  case range.index hi lo i => exact absurd heq.symm (index_ne_range i hi lo)
  case range.range hi lo hi' lo' =>
    obtain ⟨rfl, rfl⟩ := range_injective heq
    rfl
  case opening.opening => rfl
  case closing.closing => rfl

/-! ### Letters of words -/

/-- The letters that end a word or a line. -/
def IsSeparator (c : Char) : Prop := c = ' ' ∨ c = '\n'

theorem IsSeparator.isDigit_eq_false {c : Char} (hc : IsSeparator c) : c.isDigit = false := by
  rcases hc with rfl | rfl <;> rfl

theorem IsSeparator.notMem_identifier {c : Char} (hc : IsSeparator c) {n : String} (h : IsName n) :
    c ∉ (identifier n).toList := by
  have hn : c ∉ n.toList := by
    rcases hc with rfl | rfl
    · exact h.1
    · exact h.2.1
  have hbackslash : c ≠ '\\' := by rcases hc with rfl | rfl <;> decide
  rcases toList_identifier h with ⟨hname, -⟩ | ⟨hname, -⟩
  · rwa [hname]
  · rw [hname, List.mem_cons, not_or]
    exact ⟨hbackslash, hn⟩

theorem IsSeparator.notMem_sized {c : Char} (hc : IsSeparator c) (bits : List Bit) :
    c ∉ (Rtlil.sized bits).toList := by
  rw [toList_sized, Bits.toList_render, List.mem_append, List.mem_cons, List.mem_map]
  rintro (hcount | hquote | ⟨b, -, hb⟩)
  · exact notMem_toString hc.isDigit_eq_false _ hcount
  · rcases hc with rfl | rfl <;> cases hquote
  · rcases hc with rfl | rfl <;> cases b <;> cases hb

/-- Only a quoted text has spaces. -/
theorem notMem_text_of_ne {w : Word} (h : w.IsReadable) (hlead : w.lead ≠ some '"') {c : Char}
    (hc : IsSeparator c) : c ∉ w.text.toList := by
  have hnumber (n : Nat) : c ∉ (toString n).toList := notMem_toString hc.isDigit_eq_false n
  cases w with
  | blank => exact List.not_mem_nil
  | keyword k =>
    have hlower : k.text.toList.all Char.isLower = true := by cases k <;> decide
    intro hmem
    have hc' := List.all_eq_true.mp hlower c hmem
    rcases hc with rfl | rfl <;> cases hc'
  | name n => exact hc.notMem_identifier (h n rfl)
  | number value =>
    intro hmem
    rcases isDigit_or_sign_of_mem_toString hmem with hc' | rfl
    · rw [hc.isDigit_eq_false] at hc'
      cases hc'
    · rcases hc with hc | hc <;> cases hc
  | sized bits => exact hc.notMem_sized bits
  | quoted t => exact absurd rfl hlead
  | index offset =>
    rw [toList_index]
    simp only [List.mem_cons, List.mem_append, hnumber, List.not_mem_nil, or_false, false_or]
    rcases hc with rfl | rfl <;> decide
  | range high low =>
    rw [toList_range]
    simp only [List.mem_cons, List.mem_append, hnumber, List.not_mem_nil, or_false, false_or]
    rcases hc with rfl | rfl <;> decide
  | opening => rcases hc with rfl | rfl <;> decide
  | closing => rcases hc with rfl | rfl <;> decide

theorem break_notMem_text {w : Word} (h : w.IsReadable) : '\n' ∉ w.text.toList := by
  by_cases hlead : w.lead = some '"'
  · cases w with
    | quoted t => exact fun hc => absurd (Quoted.printable_of_mem_encode hc).1 (by decide)
    | _ => cases hlead
  · exact notMem_text_of_ne h hlead (Or.inr rfl)

end Word

/-! ### Lists of words -/

def written (words : List Word) : List Char := words.flatMap fun w => ' ' :: w.text.toList

/-- Whether the words of a line can be told from its letters: a quoted text is at its end. -/
def Readable : List Word → Prop
  | [] => True
  | w :: rest => w.IsReadable ∧ (w.lead = some '"' → rest = []) ∧ Readable rest

/-- Words that can be read wherever they stand. -/
def IsPlain (words : List Word) : Prop := ∀ w ∈ words, w.IsReadable ∧ w.lead ≠ some '"'

theorem readable_append {words rest : List Word} (h : IsPlain words) (hrest : Readable rest) :
    Readable (words ++ rest) := by
  induction words with
  | nil => exact hrest
  | cons w words ih =>
    obtain ⟨hw, hlead⟩ := h w List.mem_cons_self
    exact ⟨hw, fun hquoted => absurd hquoted hlead, ih fun w hw => h w (List.mem_cons_of_mem _ hw)⟩

theorem IsPlain.readable {words : List Word} (h : IsPlain words) : Readable words := by
  rw [← List.append_nil words]
  exact readable_append h trivial

theorem written_cons (w : Word) (words : List Word) :
    written (w :: words) = ' ' :: (w.text.toList ++ written words) := by
  rw [written, List.flatMap_cons]
  rfl

theorem written_append (words words' : List Word) :
    written (words ++ words') = written words ++ written words' :=
  List.flatMap_append

theorem head?_written (words : List Word) : ∀ c ∈ (written words).head?, (c == ' ') = true := by
  cases words with
  | nil => simp [written]
  | cons w words => simp [written_cons]

/-- A quoted text begins with a quote, and other words do not. -/
theorem lead_eq_quote_iff {w : Word} (h : w.IsReadable) (words : List Word) :
    w.lead = some '"' ↔ ((w.text.toList ++ written words).head?.map Word.leadOf) = some '"' := by
  rw [← Word.head?_text h]
  cases htext : w.text.toList with
  | cons c rest => rfl
  | nil =>
    cases words with
    | nil => rfl
    | cons w words =>
      change none = some '"' ↔ some (Word.leadOf ' ') = some '"'
      decide

theorem written_injective {words words' : List Word} (h : Readable words) (h' : Readable words')
    (heq : written words = written words') : words = words' := by
  induction words generalizing words' with
  | nil =>
    cases words' with
    | nil => rfl
    | cons w' words' => cases heq
  | cons w words ih =>
    cases words' with
    | nil => cases heq
    | cons w' words' =>
      obtain ⟨hw, hlast, hwords⟩ := h
      obtain ⟨hw', hlast', hwords'⟩ := h'
      rw [written_cons, written_cons, List.cons.injEq] at heq
      by_cases hquoted : w.lead = some '"'
      · have hquoted' : w'.lead = some '"' := by
          rw [lead_eq_quote_iff hw' words', ← heq.2, ← lead_eq_quote_iff hw words]
          exact hquoted
        rw [hlast hquoted, hlast' hquoted'] at heq ⊢
        have htext := heq.2
        rw [written, List.flatMap_nil, List.append_nil, List.append_nil] at htext
        rw [Word.text_injective hw hw' (String.toList_inj.mp htext)]
      · have hquoted' : w'.lead ≠ some '"' := by
          rw [ne_eq, lead_eq_quote_iff hw' words', ← heq.2, ← lead_eq_quote_iff hw words]
          exact hquoted
        have hspaceless {w : Word} (hw : w.IsReadable) (hquoted : w.lead ≠ some '"') :
            ∀ c ∈ w.text.toList, (c == ' ') = false := by
          intro c hc
          rw [beq_eq_false_iff_ne]
          rintro rfl
          exact Word.notMem_text_of_ne hw hquoted (Or.inl rfl) hc
        obtain ⟨htext, hrest⟩ := append_inj_of_marks (hspaceless hw hquoted)
          (hspaceless hw' hquoted') (head?_written words) (head?_written words') heq.2
        rw [Word.text_injective hw hw' (String.toList_inj.mp htext), ih hwords hwords' hrest]

theorem break_notMem_written {words : List Word} (h : Readable words) : '\n' ∉ written words := by
  induction words with
  | nil => exact List.not_mem_nil
  | cons w words ih =>
    obtain ⟨hw, -, hwords⟩ := h
    rw [written_cons, List.mem_cons, List.mem_append]
    rintro (hc | hc | hc)
    · cases hc
    · exact Word.break_notMem_text hw hc
    · exact ih hwords hc

end CircuitLowering.Rtlil
