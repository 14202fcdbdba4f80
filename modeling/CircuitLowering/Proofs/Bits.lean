import CircuitLowering.Bit
import CircuitLowering.Proofs.Queries
import Mathlib.Algebra.Ring.Nat

/-!
# Reading bit vectors

Bits of one width are told apart by their letters, and defined ones by the number that they stand for.
Numbers in two's complement and vectors of 32 defined bits are the same things: a number is read back from
its bits (`toInt?_ofInt`), and what bits are read as has these bits (`ofInt_of_toInt?`).
-/

namespace CircuitLowering.Bits

variable {bits bits' : List Bit}

theorem toChar_injective {b b' : Bit} (h : b.toChar = b'.toChar) : b = b' := by
  have hread := Bit.ofChar?_toChar b
  rw [h, Bit.ofChar?_toChar, Option.some.injEq] at hread
  exact hread.symm

theorem toList_render (bits : List Bit) : (render bits).toList = bits.reverse.map Bit.toChar := by
  rw [render, String.toList_ofList]

theorem render_injective (h : render bits = render bits') : bits = bits' := by
  have hletters := congrArg String.toList h
  rw [toList_render, toList_render] at hletters
  exact List.reverse_inj.mp ((List.map_inj_right fun _ _ => toChar_injective).mp hletters)

theorem parse?_render (bits : List Bit) : parse? (render bits) = some bits := by
  rw [parse?, toList_render, List.map_reverse, List.reverse_reverse]
  exact (mapM_map_eq_some (g := id) fun b _ => Bit.ofChar?_toChar b).trans (by rw [List.map_id])

/-! ### Numbers of bits -/

theorem toNat_lt (bits : List Bit) : toNat bits < 2 ^ bits.length := by
  induction bits with
  | nil => decide
  | cons b bits ih =>
    rw [toNat, List.length_cons, Nat.pow_succ]
    split <;> omega

theorem toNat_injective (hlength : bits.length = bits'.length) (hdefined : bits.all Bit.isDefined)
    (hdefined' : bits'.all Bit.isDefined) (h : toNat bits = toNat bits') : bits = bits' := by
  induction bits generalizing bits' with
  | nil => exact (List.eq_nil_of_length_eq_zero hlength.symm).symm
  | cons b bits ih =>
    cases bits' with
    | nil => cases hlength
    | cons b' bits' =>
      rw [List.all_cons, Bool.and_eq_true] at hdefined hdefined'
      rw [List.length_cons, List.length_cons, Nat.add_right_cancel_iff] at hlength
      have hfirst : b = b' ∧ toNat bits = toNat bits' := by
        rw [toNat, toNat] at h
        cases b <;> cases b' <;> simp [Bit.isDefined] at hdefined hdefined' h ⊢ <;> omega
      rw [hfirst.1, ih hlength hdefined.2 hdefined'.2 hfirst.2]

/-! ### Numbers in bits -/

theorem toNat_map_testBit (width n : Nat) :
    toNat ((List.range width).map fun i => .ofBool (n.testBit i)) = n % 2 ^ width := by
  induction width generalizing n with
  | zero => exact (Nat.mod_one n).symm
  | succ width ih =>
    -- the bits after the first are those of the half
    have hrest : ((List.range width).map Nat.succ).map (fun i => Bit.ofBool (n.testBit i)) =
        (List.range width).map fun i => .ofBool ((n / 2).testBit i) := by
      rw [List.map_map]
      apply List.map_congr_left
      intro i _
      exact congrArg Bit.ofBool (Nat.testBit_succ n i)
    have hfirst : (if Bit.ofBool (n.testBit 0) = .one then 1 else 0) = n % 2 := by
      rw [Nat.testBit_zero]
      rcases Nat.mod_two_eq_zero_or_one n with h | h <;> rw [h] <;> decide
    rw [List.range_succ_eq_map, List.map_cons, toNat, hrest, ih, hfirst, Nat.pow_succ', Nat.mod_mul]

theorem isDefined_ofInt (width : Nat) (value : Int) : (ofInt width value).all Bit.isDefined = true := by
  rw [ofInt, List.all_map, List.all_eq_true]
  intro i _
  rw [Function.comp_apply]
  cases (BitVec.ofInt width value).getLsbD i <;> rfl

theorem toNat_ofInt (width : Nat) (value : Int) :
    toNat (ofInt width value) = (BitVec.ofInt width value).toNat := by
  have hbits : ofInt width value = (List.range width).map fun i =>
      .ofBool ((BitVec.ofInt width value).toNat.testBit i) := by
    apply List.map_congr_left
    intro i _
    rw [BitVec.testBit_toNat]
  rw [hbits, toNat_map_testBit, Nat.mod_eq_of_lt (BitVec.ofInt width value).isLt]

/-- A number that has 32 bits in two's complement is read back from them. -/
theorem toInt?_ofInt {value : Int} (hlow : -2147483648 ≤ value) (hhigh : value < 2147483648) :
    toInt? (ofInt 32 value) = some value := by
  have hlast : (ofInt 32 value).getLast? = some .one ↔ (BitVec.ofInt 32 value).msb = true := by
    rw [BitVec.msb_eq_getLsbD_last, ofInt, List.range_succ, List.map_append, List.map_singleton,
      List.getLast?_concat]
    cases (BitVec.ofInt 32 value).getLsbD 31 <;> decide
  have hvalue : (BitVec.ofInt 32 value).toInt = value :=
    BitVec.toInt_ofInt_eq_self (by decide) hlow hhigh
  rw [BitVec.toInt_eq_msb_cond] at hvalue
  unfold toInt?
  rw [if_pos ⟨Nat.le_of_eq (length_ofInt 32 value), isDefined_ofInt 32 value⟩, toNat_ofInt]
  split
  · next hsign =>
    rw [if_pos (hlast.mp hsign.2)] at hvalue
    exact congrArg some hvalue
  · next hsign =>
    rw [if_neg fun hmsb => hsign ⟨length_ofInt 32 value, hlast.mpr hmsb⟩] at hvalue
    exact congrArg some hvalue

/-- 32 defined bits are those of a number in two's complement. -/
theorem exists_ofInt (hlength : bits.length = 32) (hdefined : bits.all Bit.isDefined) :
    ∃ value : Int, -2147483648 ≤ value ∧ value < 2147483648 ∧ ofInt 32 value = bits := by
  have hnumber : toNat bits < 2 ^ 32 := hlength ▸ toNat_lt bits
  refine ⟨(BitVec.ofNat 32 (toNat bits)).toInt, BitVec.le_toInt _, BitVec.toInt_lt, ?_⟩
  apply toNat_injective ((length_ofInt 32 _).trans hlength.symm) (isDefined_ofInt 32 _) hdefined
  rw [toNat_ofInt, BitVec.ofInt_toInt, BitVec.toNat_ofNat, Nat.mod_eq_of_lt hnumber]

/-- What 32 bits are read as has these bits in two's complement. -/
theorem ofInt_of_toInt? (hlength : bits.length = 32) {value : Int} (h : toInt? bits = some value) :
    ofInt 32 value = bits ∧ -2147483648 ≤ value ∧ value < 2147483648 := by
  have hdefined : bits.all Bit.isDefined := by
    unfold toInt? at h
    split at h
    · next hfine => exact hfine.2
    · cases h
  obtain ⟨number, hlow, hhigh, rfl⟩ := exists_ofInt hlength hdefined
  rw [toInt?_ofInt hlow hhigh, Option.some.injEq] at h
  subst h
  exact ⟨rfl, hlow, hhigh⟩

theorem toInt?_injective {value : Int} (hlength : bits.length = 32) (hlength' : bits'.length = 32)
    (h : toInt? bits = some value) (h' : toInt? bits' = some value) : bits = bits' :=
  (ofInt_of_toInt? hlength h).1.symm.trans (ofInt_of_toInt? hlength' h').1

end CircuitLowering.Bits
