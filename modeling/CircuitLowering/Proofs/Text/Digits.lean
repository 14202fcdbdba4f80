/-!
# Numbers in digits

Different numbers are written differently, and a written number has digits only, with a sign before
them if it is negative.
-/

namespace CircuitLowering.Text

theorem toList_toString_nat (n : Nat) : (toString n).toList = Nat.toDigits 10 n := by
  rw [Nat.toString_eq_ofList_toDigits, String.toList_ofList]

theorem isDigit_of_mem_toString {n : Nat} {c : Char} (hc : c ∈ (toString n).toList) :
    c.isDigit = true := by
  rw [toList_toString_nat] at hc
  exact Nat.isDigit_of_mem_toDigits (by decide) (by decide) hc

theorem exists_digit_toString (n : Nat) : ∃ c rest, (toString n).toList = c :: rest ∧
    c.isDigit = true := by
  cases h : (toString n).toList with
  | nil =>
    rw [toList_toString_nat] at h
    exact absurd h Nat.toDigits_ne_nil
  | cons c rest => exact ⟨c, rest, rfl, isDigit_of_mem_toString (h ▸ List.mem_cons_self)⟩

theorem toString_nat_injective {i j : Nat} (h : toString i = toString j) : i = j := by
  have hdigits : Nat.toDigits 10 i = Nat.toDigits 10 j := by
    rw [← toList_toString_nat, h, toList_toString_nat]
  have hvalue := congrArg (fun digits => Nat.ofDigitChars 10 digits 0) hdigits
  simpa using hvalue

/-! ### Numbers with a sign -/

theorem toString_ofNat (n : Nat) : toString (Int.ofNat n) = toString n := rfl

theorem toList_toString_negSucc (n : Nat) :
    (toString (Int.negSucc n)).toList = '-' :: (toString (n + 1)).toList := by
  change ("-" ++ toString (n + 1)).toList = _
  simp

theorem isDigit_or_sign_of_mem_toString {i : Int} {c : Char} (hc : c ∈ (toString i).toList) :
    c.isDigit = true ∨ c = '-' := by
  cases i with
  | ofNat n => exact Or.inl (isDigit_of_mem_toString hc)
  | negSucc n =>
    rw [toList_toString_negSucc] at hc
    rcases List.mem_cons.mp hc with hc | hc
    · exact Or.inr hc
    · exact Or.inl (isDigit_of_mem_toString hc)

theorem exists_lead_toString_int (i : Int) : ∃ c rest, (toString i).toList = c :: rest ∧
    (c.isDigit = true ∨ c = '-') := by
  cases i with
  | ofNat n =>
    obtain ⟨c, rest, h, hc⟩ := exists_digit_toString n
    exact ⟨c, rest, h, Or.inl hc⟩
  | negSucc n => exact ⟨'-', _, toList_toString_negSucc n, Or.inr rfl⟩

theorem toString_int_injective {i j : Int} (h : toString i = toString j) : i = j := by
  have hsign (n k : Nat) : toString (Int.ofNat n) ≠ toString (Int.negSucc k) := by
    intro h
    obtain ⟨c, rest, hn, hc⟩ := exists_digit_toString n
    have htext := congrArg String.toList h
    rw [toString_ofNat, hn, toList_toString_negSucc] at htext
    rw [(List.cons.inj htext).1] at hc
    exact absurd hc (by decide)
  cases i with
  | ofNat n =>
    cases j with
    | ofNat k => exact congrArg Int.ofNat (toString_nat_injective h)
    | negSucc k => exact absurd h (hsign n k)
  | negSucc n =>
    cases j with
    | ofNat k => exact absurd h.symm (hsign k n)
    | negSucc k =>
      have htext := congrArg String.toList h
      rw [toList_toString_negSucc, toList_toString_negSucc] at htext
      have hnumber := toString_nat_injective (String.toList_inj.mp (List.cons.inj htext).2)
      rw [Nat.add_right_cancel hnumber]

end CircuitLowering.Text
