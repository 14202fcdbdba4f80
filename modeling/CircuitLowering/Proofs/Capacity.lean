import CircuitLowering.Capacity
import Mathlib.Algebra.Ring.Nat

/-!
# How long lists that are added to can be

A list whose items come one by one is held in blocks whose room is doubled, so that its room is a power of
two, and a text to which letters are added after it was taken in has room for twice its letters.
-/

namespace CircuitLowering.Capacity

theorem listRoom_succ (count : Nat) : listRoom (count + 1) = grow 4 (listRoom count) (count + 1) := by
  rw [listRoom, List.range_succ, List.foldl_append]
  rfl

/-- The room of a list is a power of two, and no larger than it must be. -/
theorem exists_listRoom_succ (count : Nat) :
    ∃ k, listRoom (count + 1) = 2 ^ (k + 2) ∧ count + 1 ≤ 2 ^ (k + 2) ∧ (k = 0 ∨ 2 ^ (k + 1) < count + 1) := by
  induction count with
  | zero => exact ⟨0, rfl, by decide, Or.inl rfl⟩
  | succ count ih =>
    obtain ⟨k, hroom, hcount, hleast⟩ := ih
    rw [listRoom_succ, hroom, grow]
    split
    · next hfree => exact ⟨k, rfl, hfree, hleast.imp_right fun h => by omega⟩
    · next hfull =>
      have htwice : 2 ^ (k + 1 + 2) = 2 * 2 ^ (k + 2) := Nat.pow_succ'
      have hfour : 2 ^ 2 ≤ 2 ^ (k + 2) := Nat.pow_le_pow_right (by decide) (Nat.le_add_left 2 k)
      have hgrown : max (2 * 2 ^ (k + 2)) (count + 1 + 1) = 2 * 2 ^ (k + 2) := Nat.max_eq_left (by omega)
      refine ⟨k + 1, ?_, by omega, Or.inr (Nat.lt_of_not_le hfull)⟩
      rw [htwice, hgrown, Nat.max_eq_right (by omega)]

theorem fits_listRoom_iff {count : Nat} :
    fits textBytes (listRoom count) = true ↔ count ≤ 2 ^ 58 := by
  rw [fits_iff, textBytes, maxBytes]
  cases count with
  | zero => decide
  | succ count =>
    obtain ⟨k, hroom, hcount, hleast⟩ := exists_listRoom_succ count
    rw [hroom]
    constructor
    · intro hfits
      have hpow : 2 ^ (k + 2) < 2 ^ 59 := by omega
      have hk : k + 2 < 59 := (Nat.pow_lt_pow_iff_right (by decide)).mp hpow
      exact Nat.le_trans hcount (Nat.pow_le_pow_right (by decide) (Nat.le_of_lt_succ hk))
    · intro hfew
      have hpow : 2 ^ (k + 2) ≤ 2 ^ 58 := by
        rcases hleast with rfl | hleast
        · decide
        · have hk : k + 1 < 58 := 
            (Nat.pow_lt_pow_iff_right (a := 2) (by decide)).mp (Nat.lt_of_lt_of_le hleast hfew)
          exact Nat.pow_le_pow_right (by decide) hk
      omega

/-- A text is refused that leaves no room for twice its letters once a few more are added. -/
theorem fits_textRoom_iff {collected added : Nat} (hadded : 0 < added) (hfew : added ≤ 8) :
    fits letterBytes (textRoom collected added) = true ↔ collected < 2 ^ 62 := by
  rw [fits_iff, letterBytes, maxBytes, textRoom, grow, grow]
  split <;> split <;> omega

end CircuitLowering.Capacity
