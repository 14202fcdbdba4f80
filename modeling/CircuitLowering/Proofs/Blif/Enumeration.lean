import CircuitLowering.Blif.Cover
import CircuitLowering.Proofs.Capacity
import Mathlib.Algebra.Ring.Nat
import Mathlib.Data.List.Induction
import Mathlib.Data.List.Nodup
import Mathlib.Data.Nat.Bitwise
import Mathlib.Data.Nat.Digits.Defs

/-!
# The rows of lookup tables, one combination after the other

A mask is walked for the rows of its table: as far as a word can count the combinations, and each row is
made of digits that are shifted out of a word.  Shifts are guarded, and where a guard stops one the digit
is zero and the whole mask is walked.  What comes of it is the table as it is defined: the combinations are
counted up, and there is a row for each at which the mask is one, made of the number in as many binary
digits as there are inputs (`Blif.enumerated`).  Here both are one list at every width, whatever is beyond
the end of the mask or of the combinations, and rows are given out unless memory does not hold them
(`Blif.lutRowsChecked_enumerates`).
-/

namespace CircuitLowering.Blif

/-! ### Guarded shifts -/

/-- The guards let a shift through whose count is below 64, and no other. -/
theorem bind_shiftCount? (shifted : UInt32 → UInt64) (n : Nat) :
    ((shiftCount? n).bind fun count => if count < 64 then some (shifted count) else none) =
      if n < 64 then some (shifted (.ofNat n)) else none := by
  unfold shiftCount?
  by_cases hcount : n < UInt32.size
  · have hguard : UInt32.ofNat n < 64 ↔ n < 64 := by
      rw [UInt32.lt_iff_toNat_lt, UInt32.toNat_ofNat_of_lt' hcount]
      rfl
    rw [if_pos hcount, Option.bind_some]
    exact if_congr hguard rfl rfl
  · have hbeyond : ¬ n < 64 := fun h => hcount (Nat.lt_trans h (by decide))
    rw [if_neg hcount, if_neg hbeyond]
    rfl

theorem toNat_toUInt64_mod {n : Nat} (h : n < 64) : (UInt32.ofNat n).toUInt64.toNat % 64 = n := by
  rw [UInt32.toNat_toUInt64, UInt32.toNat_ofNat_of_lt' (Nat.lt_trans h (by decide)), Nat.mod_eq_of_lt h]

theorem digit_ofNat {i : Nat} (hi : i < UInt64.size) (j : Nat) :
    digit (.ofNat i) j = if i.testBit j then '1' else '0' := by
  have hguard : (shiftCount? j).bind (shiftRight? (.ofNat i)) = _ :=
    bind_shiftCount? (fun count => UInt64.ofNat i >>> count.toUInt64) j
  rw [digit, hguard]
  by_cases hj : j < 64
  · have hbit : UInt64.ofNat i >>> (UInt32.ofNat j).toUInt64 &&& 1 = 1 ↔ i.testBit j = true := by
      rw [← UInt64.toNat_inj, UInt64.toNat_and, UInt64.toNat_shiftRight, toNat_toUInt64_mod hj,
        UInt64.toNat_ofNat_of_lt' hi, Nat.testBit_eq_decide_div_mod_eq, decide_eq_true_iff,
        Nat.shiftRight_eq_div_pow]
      exact Eq.congr_left (Nat.and_one_is_mod _)
    rw [if_pos hj]
    exact if_congr hbit rfl rfl
  · -- a word has no bits from place 64 on
    have hbeyond : i.testBit j = false := by
      apply Nat.testBit_lt_two_pow
      exact Nat.lt_of_lt_of_le hi (Nat.pow_le_pow_right (n := 2) (by decide) (Nat.le_of_not_lt hj))
    rw [if_neg hj, hbeyond]
    rfl

theorem toNat_combinations (width : Nat) :
    (combinations width).toNat = if width < 64 then 2 ^ width else UInt64.size - 1 := by
  have hguard : (shiftCount? width).bind (shiftLeft? 1) = _ :=
    bind_shiftCount? (fun count => 1 <<< count.toUInt64) width
  rw [combinations, hguard]
  by_cases hwidth : width < 64
  · have hpow : 2 ^ width < 2 ^ 64 := Nat.pow_lt_pow_right (by decide) hwidth
    rw [if_pos hwidth, if_pos hwidth, Option.getD_some, UInt64.toNat_shiftLeft, toNat_toUInt64_mod hwidth,
      UInt64.toNat_one, Nat.one_shiftLeft, Nat.mod_eq_of_lt hpow]
  · rw [if_neg hwidth, if_neg hwidth]
    rfl

/-! ### Binary numerals -/

/-- The binary digits of `n` in `width` places, most significant digit first. -/
def binary (n : Nat) : Nat → List Char
  | 0 => []
  | width + 1 => (if n.testBit width then '1' else '0') :: binary n width

theorem lutRow_ofNat {i : Nat} (hi : i < UInt64.size) (width : Nat) :
    lutRow width (.ofNat i) = String.ofList (binary i width) ++ " 1" := by
  have hdigits : (List.range width).reverse.map (digit (.ofNat i)) = binary i width := by
    induction width with
    | zero => rfl
    | succ width ih =>
      rw [List.range_succ, List.reverse_append, List.reverse_singleton, List.singleton_append,
        List.map_cons, ih, digit_ofNat hi, binary]
  rw [lutRow, hdigits, rowEnd]

/-- The binary numeral of `n`, with zeros before it up to `width` digits. -/
def numeral (width n : Nat) : String :=
  String.ofList (((Nat.digits 2 n).reverse.map Nat.digitChar).leftpad width '0')

theorem leftpad_concat (width : Nat) (letters : List Char) (c : Char) :
    (letters ++ [c]).leftpad (width + 1) '0' = letters.leftpad width '0' ++ [c] := by
  rw [List.leftpad, List.leftpad, List.length_append, List.length_singleton, Nat.add_sub_add_right,
    List.append_assoc]

/-- The last digit tells whether a number is odd, and those before it are the digits of the half. -/
theorem binary_succ (n width : Nat) :
    binary n (width + 1) = binary (n / 2) width ++ [Nat.digitChar (n % 2)] := by
  induction width with
  | zero =>
    rw [binary, binary, binary, Nat.testBit_zero]
    rcases Nat.mod_two_eq_zero_or_one n with h | h <;> rw [h] <;> rfl
  | succ width ih => rw [binary, ih, Nat.testBit_succ, binary, List.cons_append]

theorem binary_eq_leftpad {n width : Nat} (h : n < 2 ^ width) :
    binary n width = ((Nat.digits 2 n).reverse.map Nat.digitChar).leftpad width '0' := by
  induction width generalizing n with
  | zero =>
    rw [Nat.pow_zero, Nat.lt_one_iff] at h
    rw [h]
    rfl
  | succ width ih =>
    have hhalf : n / 2 < 2 ^ width := by
      rw [Nat.pow_succ] at h
      omega
    rw [binary_succ, ih hhalf, ← leftpad_concat]
    by_cases hzero : n = 0
    · -- zero has no digits, and its last one is taken from the padding
      subst hzero
      simp [List.leftpad, List.replicate_succ']
    · rw [Nat.digits_def' (by decide) (Nat.pos_of_ne_zero hzero), List.reverse_cons, List.map_append]
      rfl

/-- Digits tell numbers apart up to the first place beyond them. -/
theorem mod_eq_of_binary_eq {n n' width : Nat} (h : binary n width = binary n' width) :
    n % 2 ^ width = n' % 2 ^ width := by
  induction width with
  | zero => rw [Nat.pow_zero, Nat.mod_one, Nat.mod_one]
  | succ width ih =>
    rw [binary, binary, List.cons.injEq] at h
    have hbit : n.testBit width = n'.testBit width := by
      cases hn : n.testBit width <;> cases hn' : n'.testBit width <;> rw [hn, hn'] at h
      all_goals first | rfl | exact absurd h.1 (by decide)
    rw [Nat.mod_pow_succ, Nat.mod_pow_succ, ih h.2, ← Nat.toNat_testBit, ← Nat.toNat_testBit, hbit]

/-! ### Lists by their places -/

section Places

variable {α β : Type}

/-- To go through a list with its places is to look up each place. -/
theorem filterMap_zipIdx (f : α → Nat → Option β) (l : List α) :
    l.zipIdx.filterMap (fun (a, i) => f a i) =
      (List.range l.length).filterMap fun i => l[i]?.bind (f · i) := by
  induction l using List.reverseRecOn with
  | nil => rfl
  | append_singleton l a ih =>
    have hkept : ∀ i ∈ List.range l.length, (l ++ [a])[i]?.bind (f · i) = l[i]?.bind (f · i) := by
      intro i hi
      rw [List.getElem?_append_left (List.mem_range.mp hi)]
    rw [List.zipIdx_append, List.filterMap_append, ih, List.length_append, List.length_singleton,
      List.range_succ, List.filterMap_append, List.filterMap_congr hkept]
    simp [List.filterMap_cons]

/-- Places at which there is nothing can be left out. -/
theorem filterMap_range_add {f : Nat → Option β} {n : Nat} (h : ∀ i, n ≤ i → f i = none) (k : Nat) :
    (List.range (n + k)).filterMap f = (List.range n).filterMap f := by
  have hrest : ((List.range k).map (n + ·)).filterMap f = [] := by
    rw [List.filterMap_eq_nil_iff]
    intro i hi
    obtain ⟨j, -, rfl⟩ := List.mem_map.mp hi
    exact h _ (Nat.le_add_right n j)
  rw [List.range_add, List.filterMap_append, hrest, List.append_nil]

theorem countP_range (p : α → Bool) (l : List α) (n : Nat) :
    (List.range n).countP (fun i => l[i]?.any p) = (l.take n).countP p := by
  induction n with
  | zero => rfl
  | succ n ih =>
    rw [List.range_succ, List.countP_append, ih, List.take_add_one, List.countP_append,
      List.countP_singleton]
    cases l[n]? with
    | none => rfl
    | some a => rw [Option.any_some, Option.toList_some, List.countP_singleton]

end Places

/-! ### Enumerated rows -/

/-- The rows of a lookup table as they are defined: for each combination from zero on at which the mask
is one, the binary numeral of the combination. -/
def enumerated (width : Nat) (mask : List Bit) : List String :=
  (List.range (2 ^ width)).filterMap fun n =>
    if mask[n]? = some .one then some (numeral width n ++ " 1") else none

/-- The row at a number at which the mask is one, if the number is that of a combination. -/
def rowAt? (width : Nat) (mask : List Bit) (n : Nat) : Option String :=
  if mask[n]? = some .one ∧ n < 2 ^ width then some (String.ofList (binary n width) ++ " 1") else none

theorem rowAt?_eq_none {width : Nat} {mask : List Bit} {n : Nat}
    (h : mask.length ≤ n ∨ 2 ^ width ≤ n) : rowAt? width mask n = none := by
  refine if_neg fun hrow => ?_
  rcases h with hmask | hcombinations
  · rw [List.getElem?_eq_none hmask] at hrow
    exact nomatch hrow.1
  · exact absurd hrow.2 (Nat.not_lt.mpr hcombinations)

/-- The walk over the mask ends after the combinations, or with the mask where a word cannot count them;
a mask that is held in memory has an end that a word can count. -/
theorem lutRows_eq_filterMap {width : Nat} {mask : List Bit}
    (h : width < 64 ∨ mask.length < UInt64.size) :
    lutRows width mask =
      (List.range (min (combinations width).toNat mask.length)).filterMap (rowAt? width mask) ∧
    ∀ n, min (combinations width).toNat mask.length ≤ n → mask.length ≤ n ∨ 2 ^ width ≤ n := by
  have hwords : width < 64 → 2 ^ width < UInt64.size := fun hwidth =>
    Nat.pow_lt_pow_right (by decide) hwidth
  have hcombinations : ¬ width < 64 → UInt64.size ≤ 2 ^ width := fun hwidth =>
    Nat.pow_le_pow_right (n := 2) (by decide) (Nat.le_of_not_lt hwidth)
  have hcount := toNat_combinations width
  constructor
  · let place? (b : Bit) (i : Nat) : Option UInt64 := if b = .one then some (.ofNat i) else none
    rw [lutRows, lutPlaces, onePlaces]
    rw [show (mask.take (combinations width).toNat).zipIdx.filterMap _ = _ from
      filterMap_zipIdx place? _, List.map_filterMap, List.length_take]
    refine List.filterMap_congr fun n hn => ?_
    rw [List.mem_range, Nat.lt_min] at hn
    have hn' : n < 2 ^ width ∧ n < UInt64.size := by
      split at hcount
      · next hwidth => exact ⟨hcount ▸ hn.1, Nat.lt_trans (hcount ▸ hn.1) (hwords hwidth)⟩
      · next hwidth =>
        have hmask := h.resolve_left hwidth
        exact ⟨Nat.lt_of_lt_of_le (Nat.lt_trans hn.2 hmask) (hcombinations hwidth),
          Nat.lt_trans hn.2 hmask⟩
    rw [List.getElem?_take_of_lt hn.1]
    cases hbit : mask[n]? with
    | none => simp [rowAt?, hbit]
    | some b => by_cases hb : b = .one <;> simp [place?, rowAt?, hbit, hb, hn'.1, lutRow_ofNat hn'.2]
  · intro n hn
    rw [min_le_iff] at hn
    split at hcount
    · exact (hn.imp_left fun hn => hcount ▸ hn).symm
    · next hwidth =>
      have hmask := h.resolve_left hwidth
      exact Or.inl (hn.elim (fun hn => by omega) id)

theorem enumerated_eq_filterMap (width : Nat) (mask : List Bit) :
    enumerated width mask = (List.range (2 ^ width)).filterMap (rowAt? width mask) := by
  apply List.filterMap_congr
  intro n hn
  rw [List.mem_range] at hn
  simp only [rowAt?, numeral, binary_eq_leftpad hn, hn, and_true]

theorem lutRows_eq_enumerated {width : Nat} {mask : List Bit}
    (h : width < 64 ∨ mask.length < UInt64.size) : lutRows width mask = enumerated width mask := by
  obtain ⟨hrows, hend⟩ := lutRows_eq_filterMap h
  have hwalked : ∀ n, min (combinations width).toNat mask.length ≤ n → rowAt? width mask n = none :=
    fun n hn => rowAt?_eq_none (hend n hn)
  have hcombinations : ∀ n, 2 ^ width ≤ n → rowAt? width mask n = none := fun n hn =>
    rowAt?_eq_none (Or.inr hn)
  rw [hrows, enumerated_eq_filterMap, ← filterMap_range_add hwalked (2 ^ width), Nat.add_comm,
    filterMap_range_add hcombinations]

theorem nodup_enumerated (width : Nat) (mask : List Bit) : (enumerated width mask).Nodup := by
  rw [enumerated_eq_filterMap]
  refine List.Nodup.filterMap ?_ List.nodup_range
  intro n n' row hn hn'
  obtain ⟨⟨-, hlt⟩, hrow⟩ := Option.ite_none_right_eq_some.mp hn
  obtain ⟨⟨-, hlt'⟩, hrow'⟩ := Option.ite_none_right_eq_some.mp hn'
  have hletters := congrArg String.toList (Option.some.inj (hrow.trans hrow'.symm))
  rw [String.toList_append, String.toList_append, List.append_left_inj, String.toList_ofList,
    String.toList_ofList] at hletters
  rw [← Nat.mod_eq_of_lt hlt, mod_eq_of_binary_eq hletters, Nat.mod_eq_of_lt hlt']

theorem length_enumerated (width : Nat) (mask : List Bit) :
    (enumerated width mask).length = (mask.take (2 ^ width)).count .one := by
  rw [enumerated, List.length_filterMap_eq_countP, List.count_eq_countP, ← countP_range]
  apply List.countP_congr
  intro n _
  cases mask[n]? <;> simp

theorem lutFits_iff {width : Nat} {mask : List Bit} :
    lutFits width mask = true ↔
      lutRows width mask = [] ∨ (width < 2 ^ 62 ∧ (lutRows width mask).length ≤ 2 ^ 58) := by
  have hrow : rowFits width = true ↔ width < 2 ^ 62 := Capacity.fits_textRoom_iff (by decide) (by decide)
  rw [lutFits, Bool.and_eq_true, Bool.or_eq_true, decide_eq_true_iff, hrow, Capacity.fits_listRoom_iff,
    ← List.length_eq_zero_iff, lutRows, List.length_map]
  omega

/-- A table that has not too many combinations fits, whatever its mask is. -/
theorem lutRowsChecked_eq_ok {width : Nat} (h : width ≤ 58) (mask : List Bit) :
    lutRowsChecked width mask = .ok (lutRows width mask) := by
  have hfew : (lutRows width mask).length ≤ 2 ^ 58 := by
    rw [lutRows_eq_enumerated (Or.inl (Nat.lt_of_le_of_lt h (by decide))), length_enumerated]
    refine List.count_le_length.trans ((List.length_take_le _ _).trans ?_)
    exact Nat.pow_le_pow_right (by decide) h
  rw [lutRowsChecked, if_pos (lutFits_iff.mpr (Or.inr ⟨Nat.lt_of_le_of_lt h (by decide), hfew⟩))]

/-- At every width the rows are those of the enumeration.  They are given out unless a row is longer than
memory allows, or there are more rows than it holds.  No row comes twice, and there are as many as the mask
has ones among its first `2 ^ width` bits.  The mask is held in memory. -/
theorem lutRowsChecked_enumerates (width : Nat) {mask : List Bit} (hmask : mask.length ≤ Capacity.maxBytes) :
    lutRows width mask = enumerated width mask ∧
    lutRowsChecked width mask =
      (if enumerated width mask = [] ∨ (width < 2 ^ 62 ∧ (enumerated width mask).length ≤ 2 ^ 58) then
        .ok (enumerated width mask)
      else .error .overflow) ∧
    (enumerated width mask).Nodup ∧
    (enumerated width mask).length = (mask.take (2 ^ width)).count .one := by
  have hrows : lutRows width mask = enumerated width mask :=
    lutRows_eq_enumerated (Or.inr (Nat.lt_of_le_of_lt hmask (by decide)))
  refine ⟨hrows, ?_, nodup_enumerated width mask, length_enumerated width mask⟩
  rw [← hrows, lutRowsChecked]
  exact if_congr lutFits_iff rfl rfl

/-- A table with more inputs than a word has places. -/
theorem lutRowsChecked_enumerates_wide :
    [Bit.zero, .one, .unknown, .one].length ≤ Capacity.maxBytes ∧
      enumerated 66 [.zero, .one, .unknown, .one] =
        ["000000000000000000000000000000000000000000000000000000000000000001 1",
          "000000000000000000000000000000000000000000000000000000000000000011 1"] ∧
      lutRowsChecked 66 [.zero, .one, .unknown, .one] =
        .ok ["000000000000000000000000000000000000000000000000000000000000000001 1",
          "000000000000000000000000000000000000000000000000000000000000000011 1"] := by
  have hmask : [Bit.zero, .one, .unknown, .one].length ≤ Capacity.maxBytes := by decide
  obtain ⟨hrows, hchecked, -, -⟩ := lutRowsChecked_enumerates 66 hmask
  have henumerated : enumerated 66 [.zero, .one, .unknown, .one] =
      ["000000000000000000000000000000000000000000000000000000000000000001 1",
        "000000000000000000000000000000000000000000000000000000000000000011 1"] := by
    rw [← hrows]
    decide +kernel
  refine ⟨hmask, henumerated, hchecked.trans ?_⟩
  rw [henumerated]
  rfl

/-- The row of a table with too many inputs is there in the enumeration, and no memory holds it. -/
theorem lutRowsChecked_overflow :
    (enumerated 9223372036854775808 [.one]).length = 1 ∧
      lutRowsChecked 9223372036854775808 [.one] = .error .overflow ∧
      lutRowsChecked 9223372036854775808 [.one] ≠ .ok (enumerated 9223372036854775808 [.one]) := by
  have hone (width : Nat) : (enumerated width [.one]).length = 1 := by
    rw [length_enumerated, List.take_of_length_le (Nat.two_pow_pos width)]
    rfl
  have hstopped : lutRowsChecked 9223372036854775808 [.one] = .error .overflow := by decide +kernel
  refine ⟨hone _, hstopped, ?_⟩
  rw [hstopped]
  exact nofun

end CircuitLowering.Blif
