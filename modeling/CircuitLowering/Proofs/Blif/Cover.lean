import CircuitLowering.Proofs.Blif.Enumeration

/-!
# What covers mean

A cover gives its output for each combination of values of its columns: one where a row matches, and
zero elsewhere.  `Blif.coverValue` reads a cover so.

A mask gives a value for each combination of inputs as well: `Bits.select` numbers the combinations
with the first input as the least significant one and asks whether the bit of that number is there
and is one.  Main statement: the cover of a lookup table, whose first column is the last input, has
the values of the mask (`Blif.coverValue_lutRows`).
-/

namespace CircuitLowering

namespace Bits

/-! ### Masks -/

/-- The number of a combination of values, least significant value first. -/
def combination (values : List Bool) : Nat :=
  (values.zipIdx.map fun (value, j) => value.toNat * 2 ^ j).sum

def select (mask : List Bit) (values : List Bool) : Bool :=
  mask[combination values]? = some .one

theorem combination_append_singleton (values : List Bool) (value : Bool) :
    combination (values ++ [value]) = combination values + value.toNat * 2 ^ values.length := by
  simp [combination, List.zipIdx_append]

theorem combination_lt (values : List Bool) : combination values < 2 ^ values.length := by
  rw [← List.reverse_reverse values]
  induction values.reverse with
  | nil => decide
  | cons value values ih =>
    rw [List.reverse_cons, combination_append_singleton]
    have hvalue : value.toNat ≤ 1 := Bool.toNat_le value
    simp only [List.length_append, List.length_reverse, List.length_singleton, Nat.pow_succ] at ih ⊢
    have hterm : value.toNat * 2 ^ values.length ≤ 1 * 2 ^ values.length :=
      Nat.mul_le_mul_right _ hvalue
    omega

theorem select_eq_true_iff {mask : List Bit} {values : List Bool} :
    select mask values = true ↔ mask[combination values]? = some .one :=
  decide_eq_true_iff

/-- Of the bits that resizing keeps none becomes one or stops being one. -/
theorem select_resize (mask : List Bit) (values : List Bool) :
    select (resize (2 ^ values.length) mask) values = select mask values := by
  have hlt : combination values < 2 ^ values.length := combination_lt values
  rw [Bool.eq_iff_iff, select_eq_true_iff, select_eq_true_iff, resize, List.getElem?_append,
    List.length_take]
  split
  · rw [List.getElem?_take_of_lt hlt]
  · next hbeyond =>
    have hmask : mask.length ≤ combination values := by omega
    rw [List.getElem?_eq_none hmask, List.getElem?_replicate]
    split <;> simp

end Bits

namespace Blif

/-! ### Reading a cover -/

def admits : Char → Bool → Bool
  | '0', value => !value
  | '1', value => value
  | '-', _ => true
  | _, _ => false

/-- Whether a row has a literal for each of `width` columns and ends in the output value one. -/
def IsRow (width : Nat) (row : String) : Prop :=
  ∃ literals : List Char, row = String.ofList literals ++ " 1" ∧ literals.length = width ∧
    ∀ letter ∈ literals, letter = '0' ∨ letter = '1' ∨ letter = '-'

/-- Whether the letters of a row admit the values of the columns, one letter for each column, and end
in the output value one. -/
def rowMatches : List Bool → List Char → Bool
  | [], letters => letters = [' ', '1']
  | value :: values, letter :: letters => admits letter value && rowMatches values letters
  | _ :: _, [] => false

/-- The output of a cover, given the values of its columns from left to right. -/
def coverValue (rows : List String) (values : List Bool) : Bool :=
  rows.any fun row => rowMatches values row.toList

/-! ### Lookup tables -/

theorem admits_digit (digit value : Bool) :
    admits (if digit then '1' else '0') value = (digit == value) := by
  cases digit <;> cases value <;> rfl

theorem isRow_binary (n width : Nat) : IsRow width (String.ofList (binary n width) ++ " 1") := by
  refine ⟨_, rfl, ?_⟩
  induction width with
  | zero => exact ⟨rfl, nofun⟩
  | succ width ih =>
    rw [binary]
    refine ⟨congrArg Nat.succ ih.1, List.forall_mem_cons.mpr ⟨?_, ih.2⟩⟩
    cases n.testBit width <;> simp

theorem isRow_of_mem_lutRows {width : Nat} {mask : List Bit} (h : width < 64 ∨ mask.length < UInt64.size)
    {row : String} (hrow : row ∈ lutRows width mask) : IsRow width row := by
  rw [(lutRows_eq_filterMap h).1, List.mem_filterMap] at hrow
  obtain ⟨n, -, hsome⟩ := hrow
  obtain ⟨-, hsame⟩ := Option.ite_none_right_eq_some.mp hsome
  exact Option.some.inj hsame ▸ isRow_binary n width

/-- The row of a number admits the combination of that number and no other. -/
theorem rowMatches_binary (values : List Bool) (n : Nat) :
    rowMatches values (binary n values.length ++ [' ', '1']) = true ↔
      n % 2 ^ values.length = Bits.combination values.reverse := by
  induction values with
  | nil =>
    simp [rowMatches, binary, Bits.combination, Nat.mod_one]
  | cons value values ih =>
    have hlt : Bits.combination values.reverse < 2 ^ values.length := by
      simpa using Bits.combination_lt values.reverse
    have hmod : n % 2 ^ values.length < 2 ^ values.length := Nat.mod_lt _ (Nat.two_pow_pos _)
    rw [List.length_cons, binary, List.cons_append, rowMatches, admits_digit, Bool.and_eq_true,
      ih, List.reverse_cons, Bits.combination_append_singleton, List.length_reverse, Nat.mod_pow_succ,
      ← Nat.toNat_testBit]
    cases n.testBit values.length <;> cases value <;> simp <;> omega

/-- The value of the cover of a lookup table is the bit of the mask at the combination. -/
theorem coverValue_lutRows (values : List Bool) {mask : List Bit}
    (h : values.length < 64 ∨ mask.length < UInt64.size) :
    coverValue (lutRows values.length mask) values.reverse = Bits.select mask values := by
  have hrow {n : Nat} (hn : n < 2 ^ values.length) :
      rowMatches values.reverse (numeral values.length n ++ " 1").toList = true ↔
        n = Bits.combination values := by
    have hmatch := rowMatches_binary values.reverse n
    rw [List.length_reverse, List.reverse_reverse, Nat.mod_eq_of_lt hn, binary_eq_leftpad hn] at hmatch
    rw [String.toList_append, numeral, String.toList_ofList]
    exact hmatch
  rw [lutRows_eq_enumerated h, Bool.eq_iff_iff, Bits.select_eq_true_iff, coverValue, List.any_eq_true,
    enumerated]
  constructor
  · rintro ⟨row, hrows, hmatch⟩
    obtain ⟨n, hn, hsome⟩ := List.mem_filterMap.mp hrows
    obtain ⟨hone, hsame⟩ := Option.ite_none_right_eq_some.mp hsome
    cases hsame
    rwa [← (hrow (List.mem_range.mp hn)).mp hmatch]
  · intro hone
    have hn : Bits.combination values < 2 ^ values.length := Bits.combination_lt values
    exact ⟨_, List.mem_filterMap.mpr ⟨_, List.mem_range.mpr hn, if_pos hone⟩, (hrow hn).mpr rfl⟩

end Blif

end CircuitLowering
