import CircuitLowering.Proofs.Design.Rtlil.Words
import Mathlib.Algebra.Ring.Int.Defs

/-!
# Reading constants

The written form of a value says which of three forms it is: a quoted text begins with a quote, a vector of
bits has a single quote after their count, and what is left is an integer, which stands for 32 bits in two's
complement.  `Rtlil.readConstant?` reads these forms, and what it reads from a written value is that value
(`Rtlil.readConstant?_inverts`).
-/

namespace CircuitLowering.Rtlil

open Text

/-! ### The three forms -/

def readNat? (digits : List Char) : Option Nat :=
  if digits ≠ [] ∧ digits.all Char.isDigit then some (Nat.ofDigitChars 10 digits 0) else none

def readInt? : List Char → Option Int
  | '-' :: digits => (readNat? digits).map fun n => -Int.ofNat n
  | digits => (readNat? digits).map Int.ofNat

/-- Reads a count and as many bits after a single quote, the most significant bit first. -/
def readSized? (letters : List Char) : Option (List Bit) := do
  let count ← readNat? (letters.takeWhile (· ≠ '\''))
  let bits ← Bits.parse? (String.ofList ((letters.dropWhile (· ≠ '\'')).drop 1))
  if bits.length = count then some bits else none

def readConstant? (written : String) : Option Param :=
  if written.toList.head? = some '"' then (Quoted.decode? written).map .text
  else if '\'' ∈ written.toList then (readSized? written.toList).map .bits
  else (readInt? written.toList).bind fun value =>
    if -2147483648 ≤ value ∧ value < 2147483648 then some (.ofInt value) else none

/-! ### Numbers -/

theorem readNat?_toString (n : Nat) : readNat? (toString n).toList = some n := by
  have hdigits : (toString n).toList.all Char.isDigit = true := by
    rw [List.all_eq_true]
    exact fun c hc => isDigit_of_mem_toString hc
  obtain ⟨c, rest, hletters, -⟩ := exists_digit_toString n
  rw [readNat?, if_pos ⟨by rw [hletters]; exact List.cons_ne_nil c rest, hdigits⟩,
    toList_toString_nat, Nat.ofDigitChars_toDigits (by decide) (by decide)]

theorem readInt?_toString (value : Int) : readInt? (toString value).toList = some value := by
  cases value with
  | ofNat n =>
    have hread := readNat?_toString n
    obtain ⟨c, rest, hletters, hc⟩ := exists_digit_toString n
    rw [toString_ofNat]
    rw [hletters] at hread ⊢
    rw [readInt?, hread, Option.map_some]
    rintro digits hsign
    rw [(List.cons.inj hsign).1] at hc
    cases hc
  | negSucc n =>
    rw [toList_toString_negSucc, readInt?, readNat?_toString, Option.map_some]
    rfl

/-! ### Bits -/

theorem readSized?_sized (bits : List Bit) : readSized? (sized bits).toList = some bits := by
  have hcount : ∀ c ∈ (toString bits.length).toList, decide (c ≠ '\'') = true := by
    intro c hc
    rw [decide_eq_true_iff]
    rintro rfl
    exact Word.notMem_toString rfl _ hc
  rw [Word.toList_sized, readSized?, List.takeWhile_append_of_pos hcount,
    List.dropWhile_append_of_pos hcount, List.takeWhile_cons_of_neg (by simp), List.append_nil,
    List.dropWhile_cons_of_neg (by simp), List.drop_one, List.tail_cons, String.ofList_toList,
    readNat?_toString, Bits.parse?_render]
  exact if_pos rfl

/-! ### Constants -/

theorem readConstant?_toString {value : Int} (hlow : -2147483648 ≤ value) (hhigh : value < 2147483648) :
    readConstant? (toString value) = some (.ofInt value) := by
  have hquote : (toString value).toList.head? ≠ some '"' := by
    obtain ⟨c, rest, hletters, hc⟩ := exists_lead_toString_int value
    rw [hletters, List.head?_cons]
    rintro ⟨⟩
    rcases hc with hc | hc <;> cases hc
  have hsingle : '\'' ∉ (toString value).toList := by
    intro hmem
    rcases isDigit_or_sign_of_mem_toString hmem with hc | hc <;> cases hc
  rw [readConstant?, if_neg hquote, if_neg hsingle, readInt?_toString, Option.bind_some,
    if_pos ⟨hlow, hhigh⟩]

theorem readConstant?_sized (bits : List Bit) : readConstant? (sized bits) = some (.bits bits) := by
  have hquote : (sized bits).toList.head? ≠ some '"' := by
    obtain ⟨c, rest, hletters, hc⟩ := exists_digit_toString bits.length
    rw [Word.toList_sized, hletters, List.cons_append, List.head?_cons]
    rintro ⟨⟩
    cases hc
  have hsingle : '\'' ∈ (sized bits).toList := by
    rw [Word.toList_sized]
    exact List.mem_append_right _ List.mem_cons_self
  rw [readConstant?, if_neg hquote, if_pos hsingle, readSized?_sized, Option.map_some]

theorem readConstant?_quoted {letters : List Char} {text : String}
    (h : Quoted.decode? (String.ofList ('"' :: letters)) = some text) :
    readConstant? (String.ofList ('"' :: letters)) = some (.text text) := by
  rw [readConstant?, String.toList_ofList, List.head?_cons, if_pos rfl, h, Option.map_some]

theorem readConstant?_constant (value : Param) : readConstant? (constant value) = some value := by
  cases value with
  | text t =>
    have h := Quoted.decode?_encode t
    rw [constant]
    exact readConstant?_quoted h
  | bits b =>
    rw [← Word.text_ofParam]
    rcases Word.bits_of_ofParam b with ⟨value, hword, hlength, hvalue⟩ | hword
    · obtain ⟨hbits, hlow, hhigh⟩ := Bits.ofInt_of_toInt? hlength hvalue
      rw [hword, Word.text, readConstant?_toString hlow hhigh, Param.ofInt, hbits]
    · rw [hword, Word.text, readConstant?_sized]

/-- Every value is read back from its written form.  An integer of 32 bits stands for its bits in two's
complement, a sized vector for its bits, and a quoted text for the text that has the bytes which are spelled
in it.  So different texts are quoted differently, and a quoted text is printable and has no quotes that are
not escaped but the first letter and the last. -/
theorem readConstant?_inverts :
    (∀ value, readConstant? (constant value) = some value) ∧
    (∀ value : Int, -2 ^ 31 ≤ value → value < 2 ^ 31 →
      readConstant? (toString value) = some (.ofInt value)) ∧
    (∀ bits : List Bit, readConstant? (toString bits.length ++ "'" ++ Bits.render bits) =
      some (.bits bits)) ∧
    (∀ spelled text, Quoted.Spelled spelled → utf8 text = spelled.map Prod.snd →
      readConstant? (String.ofList ('"' :: (spelled.flatMap Prod.fst ++ ['"']))) =
        some (.text text)) ∧
    Function.Injective Quoted.encode ∧
    ∀ text, (∀ c ∈ (Quoted.encode text).toList, ' ' ≤ c ∧ c ≤ '~') ∧
      Quoted.openQuotes 0 (Quoted.encode text).toList = [0, (Quoted.encode text).length - 1] := by
  refine ⟨readConstant?_constant, ?_, readConstant?_sized, ?_, ?_, ?_⟩
  · intro value hlow hhigh
    exact readConstant?_toString hlow hhigh
  · intro spelled text hspelled htext
    exact readConstant?_quoted (Quoted.decode?_spelled hspelled htext)
  · intro text text' h
    exact Quoted.encode_injective h
  · intro text
    exact ⟨fun c hc => Quoted.printable_of_mem_encode hc, Quoted.openQuotes_encode text⟩

/-- The least integer, bits that are not all defined, and a letter spelled by the digits of its byte. -/
theorem readConstant?_inverts_samples :
    readConstant? "-2147483648" = some (.bits (List.replicate 31 .zero ++ [.one])) ∧
      readConstant? "3'01x" = some (.bits [.unknown, .one, .zero]) ∧
      readConstant? "\"\\061\"" = some (.text "1") := by
  obtain ⟨-, hinteger, hsized, hquoted, -⟩ := readConstant?_inverts
  have hletter : Quoted.Spelled [(['\\', '0', '6', '1'], 0x31)] := by
    intro s hs
    rw [List.mem_singleton] at hs
    subst hs
    exact .octal 0x31
  have hleast : toString (-2147483648 : Int) = "-2147483648" := by decide
  have hbits : Param.ofInt (-2147483648) = .bits (List.replicate 31 .zero ++ [.one]) := by decide
  have hbytes : utf8 "1" = [0x31] := by
    rw [utf8_eq_flatMap]
    decide
  have hthree : toString [Bit.unknown, .one, .zero].length ++ "'" ++
      Bits.render [.unknown, .one, .zero] = "3'01x" := by
    decide
  have hescaped : String.ofList ('"' :: ([(['\\', '0', '6', '1'], (0x31 : UInt8))].flatMap Prod.fst ++
      ['"'])) = "\"\\061\"" := by
    decide
  rw [← hleast, ← hbits, ← hthree, ← hescaped]
  exact ⟨hinteger (-2147483648) (by decide) (by decide), hsized [.unknown, .one, .zero],
    hquoted _ "1" hletter hbytes⟩

end CircuitLowering.Rtlil
