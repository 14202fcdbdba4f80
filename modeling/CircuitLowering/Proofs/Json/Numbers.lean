import CircuitLowering.Json.Number
import Mathlib.Data.List.TakeWhile

/-!
# Numbers that are written and read

An integer is read back from its digits (`Number.read?_render`), and what fits a machine word is in the
range of numbers that can be read (`Number.inRange_of_lt`).
-/

namespace CircuitLowering.Json.Number

/-! ### Digits -/

/-- Only zero is written with a zero in front. -/
theorem eq_zero_of_toDigits {n : Nat} {rest : List Char} (h : Nat.toDigits 10 n = '0' :: rest) :
    n = 0 := by
  induction n using Nat.strongRecOn generalizing rest with
  | ind n ih =>
    by_cases hn : n < 10
    · have hall : ∀ n < 10, Nat.digitChar n = '0' → n = 0 := by decide
      rw [Nat.toDigits_of_lt_base hn] at h
      exact hall n hn (List.cons.inj h).1
    · rw [Nat.toDigits_of_base_le (by decide) (Nat.not_lt.mp hn)] at h
      cases hdigits : Nat.toDigits 10 (n / 10) with
      | nil => exact absurd hdigits Nat.toDigits_ne_nil
      | cons c rest' =>
        rw [hdigits] at h
        have hzero := ih (n / 10) (by omega) ((List.cons.inj h).1 ▸ hdigits)
        omega

theorem spanDigits_toDigits (n : Nat) : spanDigits (Nat.toDigits 10 n) = (Nat.toDigits 10 n, []) := by
  have hdigits : ∀ c ∈ Nat.toDigits 10 n, c.isDigit = true :=
    fun c hc => Nat.isDigit_of_mem_toDigits (by decide) (by decide) hc
  rw [spanDigits, List.takeWhile_eq_self_iff.mpr hdigits, List.dropWhile_eq_nil_iff.mpr hdigits]

theorem readUnsigned?_toDigits (n : Nat) :
    readUnsigned? (Nat.toDigits 10 n) = some { whole := n } := by
  unfold readUnsigned?
  rw [spanDigits_toDigits]
  split
  · next h => exact absurd (Prod.mk.inj h).1 Nat.toDigits_ne_nil
  · next h =>
    have hdigits := (Prod.mk.inj h).1
    rw [eq_zero_of_toDigits hdigits, Nat.toDigits_zero] at hdigits
    exact nomatch hdigits
  · next whole rest _ _ h =>
    obtain ⟨rfl, rfl⟩ := Prod.mk.inj h
    rw [Nat.ofDigitChars_ten_toDigits]
    rfl

/-! ### Integers -/

def IsInteger (n : Number) : Prop := n.fraction = [] ∧ n.exponent = none

variable {n : Number}

theorem isInteger_ofNat (n : Nat) : (ofNat n).IsInteger := ⟨rfl, rfl⟩

theorem isInteger_ofInt (i : Int) : (ofInt i).IsInteger := ⟨rfl, rfl⟩

theorem toList_render (h : n.IsInteger) :
    n.render.toList = (if n.negative then ['-'] else []) ++ Nat.toDigits 10 n.whole := by
  rw [render, h.1, h.2, if_pos rfl]
  simp only [String.append_empty, String.toList_append, Nat.toString_eq_ofList_toDigits,
    String.toList_ofList]
  cases n.negative <;> rfl

theorem read?_render (h : n.IsInteger) : read? n.render.toList = some n := by
  obtain ⟨negative, whole, fraction, exponent⟩ := n
  obtain ⟨rfl, rfl⟩ := h
  rw [toList_render ⟨rfl, rfl⟩]
  cases negative with
  | true =>
    change (readUnsigned? (Nat.toDigits 10 whole)).map _ = _
    rw [readUnsigned?_toDigits]
    rfl
  | false =>
    change read? (Nat.toDigits 10 whole) = _
    unfold read?
    split
    · next rest h =>
      have hdigit := Nat.isDigit_of_mem_toDigits (b := 10) (n := whole) (c := '-') (by decide) (by decide)
        (h ▸ List.mem_cons_self)
      exact absurd hdigit (by decide)
    · exact readUnsigned?_toDigits whole

theorem toInt?_ofNat (n : Nat) : (ofNat n).toInt? = some (n : Int) := rfl

theorem toInt?_ofInt (i : Int) : (ofInt i).toInt? = some i := by
  unfold toInt?
  rw [if_pos ⟨rfl, rfl⟩]
  change (if decide (i < 0) = true then if i.natAbs = 0 then none else some (-(i.natAbs : Int))
    else some (i.natAbs : Int)) = some i
  by_cases h : i < 0
  · rw [if_pos (decide_eq_true h), if_neg (by omega), Int.ofNat_natAbs_of_nonpos (by omega), Int.neg_neg]
  · rw [if_neg (by simpa using h), Int.natAbs_of_nonneg (by omega)]

/-! ### Range -/

def value (before : Nat) (digits : List Nat) : Nat := digits.foldl (fun n digit => n * 10 + digit) before

theorem le_value (before : Nat) (digits : List Nat) : before ≤ value before digits := by
  induction digits generalizing before with
  | nil => exact Nat.le_refl before
  | cons digit digits ih => exact Nat.le_trans (by omega) (ih (before * 10 + digit))

/-- Digits are all taken where their number fits 64 bits. -/
theorem gather_eq {before taken : Nat} {digits : List Nat} (h : value before digits < UInt64.size) :
    gather before taken digits = (value before digits, taken + digits.length) := by
  induction digits generalizing before taken with
  | nil => rfl
  | cons digit digits ih =>
    have hfits : before * 10 + digit < UInt64.size :=
      Nat.lt_of_le_of_lt (le_value _ digits) h
    rw [gather, if_pos hfits, ih h, List.length_cons, Nat.add_assoc, Nat.add_comm 1]
    rfl

theorem value_toDigits (n : Nat) : value 0 (digitValues (Nat.toDigits 10 n)) = n := by
  have hdigits := Nat.ofDigitChars_ten_toDigits (n := n)
  rw [Nat.ofDigitChars_eq_foldl] at hdigits
  rw [value, digitValues, List.foldl_map]
  simp only [Nat.mul_comm 10] at hdigits
  exact hdigits

theorem roundTo53_lt {n : Nat} (h : n < UInt64.size) : roundTo53 n < Nat.pow 2 65 := by
  have hlog : n.log2 + 1 - 53 ≤ 11 := by
    rcases Nat.eq_zero_or_pos n with rfl | hpos
    · decide
    · have hlt : n.log2 < 64 := (Nat.log2_lt (Nat.ne_of_gt hpos)).mpr h
      omega
  unfold roundTo53
  generalize n.log2 + 1 - 53 = extra at hlog
  have hpow : 2 ^ extra ≤ 2 ^ 11 := Nat.pow_le_pow_right (by decide) hlog
  have hkept : n / 2 ^ extra * 2 ^ extra ≤ n := Nat.div_mul_le_self n _
  have hsize : UInt64.size = 2 ^ 64 := rfl
  have hbound : Nat.pow 2 65 = 2 ^ 64 + 2 ^ 64 := by decide
  dsimp only
  rw [hbound]
  split
  · rw [Nat.shiftLeft_eq, Nat.shiftRight_eq_div_pow, Nat.add_mul, Nat.one_mul]
    omega
  · rw [Nat.shiftLeft_eq, Nat.shiftRight_eq_div_pow]
    omega

theorem inRange_of_lt {n : Nat} (h : n < UInt64.size) : (ofNat n).inRange = true := by
  have hgather : gather 0 0 (digitValues (Nat.toDigits 10 n)) =
      (n, (digitValues (Nat.toDigits 10 n)).length) := by
    rw [gather_eq (by rwa [value_toDigits]), value_toDigits, Nat.zero_add]
  have hbound : Nat.pow 2 65 < overflowBound := by decide +kernel
  have hone : roundTo53 (Nat.pow 10 0) = 1 := by decide
  have hround : roundTo53 n * roundTo53 (Nat.pow 10 0) < overflowBound := by
    rw [hone, Nat.mul_one]
    exact Nat.lt_trans (roundTo53_lt h) hbound
  have hscale : ((0 : Nat) : Int) - ((0 : Nat) : Int) + 0 = 0 := rfl
  unfold inRange
  simp only [ofNat, hgather, gather, Nat.sub_self, Option.getD_none, hscale, Int.toNat_zero]
  split
  · rfl
  · rw [if_neg (by decide), decide_eq_true hround]

end CircuitLowering.Json.Number
