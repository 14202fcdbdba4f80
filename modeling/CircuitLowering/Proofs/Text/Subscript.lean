import CircuitLowering.Proofs.Text.Digits
import CircuitLowering.Proofs.Text.Marks
import CircuitLowering.Proofs.Text.Pattern
import CircuitLowering.Text.Subscript
import Mathlib.Data.List.Induction
import Mathlib.Data.Nat.Digits.Defs

/-!
# Reading names with a subscript

`Text.Subscript.join` writes the name of a bit of a bus and `Text.Subscript.split?` reads it.  What is
read are exactly the names of a grammar, in which every name has one base and one index
(`split?_reads_grammar`).  A name that was written is read back, as long as its base is not empty and has
no line break (`split?_join`).  Whatever the bases are, bits of different buses, or different bits of one
bus, have different names (`join_injective`).  A name that is not read as that of a bit is never the name of
one.
-/

namespace CircuitLowering.Text

namespace Subscript

/-! ### Written names -/

theorem toList_join (base : String) (index : Nat) :
    (join base index).toList = base.toList ++ '[' :: Nat.toDigits 10 index ++ [']'] := by
  simp [join]

/-- A name that can be the base of written names: it has letters and no line break. -/
def IsBase (base : String) : Prop := base ≠ "" ∧ '\n' ∉ base.toList

/-- A name that can be the base of written names and is not one of these itself. -/
def IsLabel (label : String) : Prop := IsBase label ∧ split? label = none

/-! ### The grammar of names -/

/-- The number that decimal digits stand for, the last digit counting ones. -/
def value (digits : String) : Nat :=
  Nat.ofDigits 10 (digits.toList.reverse.map fun c => c.toNat - '0'.toNat)

/-- Whether a name is made of a base and the decimal digits of an index, whatever zeros lead them. -/
structure Spells (name base digits : String) : Prop where
  name_eq : name = base ++ "[" ++ digits ++ "]"
  isBase : IsBase base
  nonempty : digits ≠ ""
  isDigit : ∀ c ∈ digits.toList, '0' ≤ c ∧ c ≤ '9'

theorem isDigit_iff {c : Char} : c.isDigit = true ↔ '0' ≤ c ∧ c ≤ '9' := by
  simp [Char.isDigit, Char.le_def]

theorem ofDigitChars_eq (digits : List Char) :
    Nat.ofDigitChars 10 digits 0 =
      Nat.ofDigits 10 (digits.reverse.map fun c => c.toNat - '0'.toNat) := by
  induction digits using List.reverseRecOn with
  | nil => rfl
  | append_singleton digits c ih =>
    rw [Nat.ofDigitChars_append, ih, List.reverse_append, List.reverse_singleton,
      List.singleton_append, List.map_cons, Nat.ofDigits_cons, Nat.ofDigitChars_cons]
    exact Nat.add_comm _ _

/-- The digits of a name end at its last bracket, so what stands before the bracket and in it can be told
from the name. -/
theorem brackets_injective {base digits base' digits' : String}
    (hdigits : ∀ c ∈ digits.toList, c.isDigit = true) (hdigits' : ∀ c ∈ digits'.toList, c.isDigit = true)
    (h : base ++ "[" ++ digits ++ "]" = base' ++ "[" ++ digits' ++ "]") :
    base = base' ∧ digits = digits' := by
  have hletters := congrArg (fun name => name.toList.reverse) h
  simp only [String.toList_append, List.reverse_append, List.append_assoc] at hletters
  have hdigit {digits : String} (hdigits : ∀ c ∈ digits.toList, c.isDigit = true) :
      ∀ c ∈ digits.toList.reverse, (!c.isDigit) = false := by
    intro c hc
    rw [Bool.not_eq_false']
    exact hdigits c (List.mem_reverse.mp hc)
  have hbracket (before : List Char) :
      ∀ c ∈ ("[".toList.reverse ++ before).head?, (!c.isDigit) = true := by
    rintro c ⟨⟩
    rfl
  obtain ⟨hsame, hrest⟩ := append_inj_of_marks (hdigit hdigits) (hdigit hdigits') (hbracket _)
    (hbracket _) (List.append_cancel_left hletters)
  exact ⟨String.toList_inj.mp (List.reverse_inj.mp (List.append_cancel_left hrest)),
    String.toList_inj.mp (List.reverse_inj.mp hsame)⟩

/-- A name is made of a base and of digits in one way at most. -/
theorem Spells.unique {name base digits base' digits' : String} (h : Spells name base digits)
    (h' : Spells name base' digits') : base = base' ∧ digits = digits' :=
  brackets_injective (fun c hc => isDigit_iff.mpr (h.isDigit c hc))
    (fun c hc => isDigit_iff.mpr (h'.isDigit c hc)) (h.name_eq.symm.trans h'.name_eq)

/-- The pattern of names matches just what the grammar makes, and the base and the digits are captured. -/
theorem matches_pattern_iff {name : String} {parts : List (List Char)} :
    pattern.Matches name.toList parts ↔
      ∃ base digits, parts = [base.toList, digits.toList] ∧ Spells name base digits := by
  constructor
  · intro h
    generalize hletters : name.toList = letters at h
    obtain _ | _ | @⟨_, base, _, _, _, hbase, hdot, hrest⟩ := h
    obtain _ | @⟨_, opening, _, _, _, hopening, hrest⟩ := hrest
    obtain _ | _ | @⟨_, digits, _, _, _, hdigits, hdigit, hrest⟩ := hrest
    obtain _ | @⟨_, closing, _, _, _, hclosing, hrest⟩ := hrest
    cases hrest
    rw [of_decide_eq_true hopening, of_decide_eq_true hclosing] at hletters
    refine ⟨String.ofList base, String.ofList digits, ?_, ?_, ⟨?_, ?_⟩, ?_, ?_⟩
    · rw [String.toList_ofList, String.toList_ofList]
    · rw [← String.toList_inj, hletters]
      simp
    · simpa using hbase
    · rw [String.toList_ofList]
      exact fun hbreak => of_decide_eq_true (hdot _ hbreak) rfl
    · simpa using hdigits
    · rw [String.toList_ofList]
      intro c hc
      have hrange := hdigit c hc
      simpa [Charset.contains] using hrange
  · rintro ⟨base, digits, rfl, hname, ⟨hne, hbreak⟩, hnonempty, hdigit⟩
    have hletters : name.toList = base.toList ++ '[' :: (digits.toList ++ [']']) := by
      rw [hname]
      simp
    rw [hletters]
    refine .capture (mt String.toList_eq_nil_iff.mp hne) (fun c hc => decide_eq_true fun hc' => ?_)
      (.one rfl (.capture (mt String.toList_eq_nil_iff.mp hnonempty) (fun c hc => ?_) (.one rfl .nil)))
    · exact hbreak (hc' ▸ hc)
    · simpa [Charset.contains] using hdigit c hc

/-- What is read are the names that are made of a base and of digits whose value is small enough. -/
theorem split?_eq_some_iff {name base : String} {index : Nat} :
    split? name = some (base, index) ↔
      ∃ digits, Spells name base digits ∧ value digits = index ∧ index < indexLimit := by
  constructor
  · intro h
    unfold split? at h
    split at h
    · next base' digits' hcaptures =>
      obtain ⟨base'', digits, hparts, hspells⟩ := matches_pattern_iff.mp (Pattern.matches_of_captures? hcaptures)
      simp only [List.cons.injEq, and_true] at hparts
      obtain ⟨rfl, rfl⟩ := hparts
      dsimp only at h
      split at h
      · next hindex =>
        obtain ⟨rfl, rfl⟩ := Prod.mk.inj (Option.some.inj h)
        rw [String.ofList_toList]
        exact ⟨digits, hspells, (ofDigitChars_eq _).symm, hindex⟩
      · cases h
    · cases h
  · rintro ⟨digits, hspells, rfl, hindex⟩
    -- what is captured is in no other way a base and digits
    obtain ⟨parts, hcaptures⟩ := Pattern.exists_captures? (matches_pattern_iff.mpr ⟨base, digits, rfl, hspells⟩)
    obtain ⟨base', digits', rfl, hspells'⟩ := matches_pattern_iff.mp (Pattern.matches_of_captures? hcaptures)
    obtain ⟨rfl, rfl⟩ := hspells.unique hspells'
    have hvalue : Nat.ofDigitChars 10 digits.toList 0 = value digits := ofDigitChars_eq _
    unfold split?
    rw [hcaptures]
    dsimp only
    rw [hvalue, if_pos hindex, String.ofList_toList]

/-- Written names spell the decimal digits of their index. -/
theorem spells_join {base : String} (hbase : IsBase base) (index : Nat) :
    Spells (join base index) base (toString index) := by
  refine ⟨rfl, hbase, ?_, ?_⟩
  · obtain ⟨c, rest, h, -⟩ := exists_digit_toString index
    rintro hempty
    rw [hempty] at h
    cases h
  · intro c hc
    exact isDigit_iff.mp (isDigit_of_mem_toString hc)

theorem value_toString (index : Nat) : value (toString index) = index := by
  rw [value, ← ofDigitChars_eq, toList_toString_nat, Nat.ofDigitChars_toDigits (by decide) (by decide)]

theorem split?_join {base : String} (hbase : IsBase base) {index : Nat} (hindex : index < indexLimit) :
    split? (join base index) = some (base, index) :=
  split?_eq_some_iff.mpr ⟨_, spells_join hbase index, value_toString index, hindex⟩

/-- A name is longer than its base. -/
theorem length_lt_join (base : String) (index : Nat) :
    base.toList.length < (join base index).toList.length := by
  simp only [toList_join, List.length_append, List.length_cons, List.length_nil]
  omega

theorem join_ne_base (base : String) (index : Nat) : join base index ≠ base := by
  intro h
  have hlength := length_lt_join base index
  rw [h] at hlength
  exact Nat.lt_irrefl _ hlength

/-- Bits of different buses, or different bits of one, have different names. -/
theorem join_injective {base base' : String} {index index' : Nat}
    (h : join base index = join base' index') : base = base' ∧ index = index' := by
  obtain ⟨hbase, hdigits⟩ := brackets_injective (fun _ => isDigit_of_mem_toString)
    (fun _ => isDigit_of_mem_toString) h
  exact ⟨hbase, toString_nat_injective hdigits⟩

/-- A name that stands for itself is not that of a bit. -/
theorem join_ne_of_split?_eq_none {base name : String} {index : Nat} (hbase : IsBase base)
    (hindex : index < indexLimit) (hname : split? name = none) : join base index ≠ name := by
  rintro rfl
  rw [split?_join hbase hindex] at hname
  cases hname

/-- Exactly the names of the grammar are read: those of a base with letters and no line break, and of
digits with a value below `2 ^ 64` in brackets.  Each is made of these in one way, and a written name is
among them. -/
theorem split?_reads_grammar :
    (∀ name base index, split? name = some (base, index) ↔
      ∃ digits, Spells name base digits ∧ value digits = index ∧ index < 2 ^ 64) ∧
    (∀ name base digits base' digits', Spells name base digits → Spells name base' digits' →
      base = base' ∧ digits = digits') ∧
    ∀ base index, IsBase base → index < 2 ^ 64 → split? (join base index) = some (base, index) := by
  refine ⟨?_, ?_, ?_⟩
  · intro name base index
    exact split?_eq_some_iff
  · intro name base digits base' digits' h h'
    exact h.unique h'
  · intro base index hbase hindex
    exact split?_join hbase hindex

/-- Only the last bracket is an index, and zeros may lead its digits. -/
theorem split?_reads_nestedName :
    Spells "mem[1][007]" "mem[1]" "007" ∧ split? "mem[1][007]" = some ("mem[1]", 7) ∧
      split? (join "mem[1]" 7) = some ("mem[1]", 7) := by
  obtain ⟨hread, -, hwritten⟩ := split?_reads_grammar
  have hbase : IsBase "mem[1]" := by
    constructor <;> decide
  have hdigits : "007".toList.all Char.isDigit = true := by decide
  have hspells : Spells "mem[1][007]" "mem[1]" "007" :=
    ⟨by decide, hbase, by decide, fun c hc => isDigit_iff.mp (List.all_eq_true.mp hdigits c hc)⟩
  exact ⟨hspells, (hread _ _ _).mpr ⟨"007", hspells, by decide, by decide⟩,
    hwritten "mem[1]" 7 hbase (by decide)⟩

end Subscript

end CircuitLowering.Text
