import CircuitLowering.Proofs.Blif.Cover
import CircuitLowering.Proofs.Capacity

/-!
# Covers of sums of products

The table of a sum of products has a pair of bits for each input of each product, and zeros beyond its
end.  `Bits.ProductHolds` reads a product of the table directly: the pair one-zero rules out the value
one, zero-one rules out the value zero, and any other pair nothing.  The rows of the cover are the
products in their order (`Blif.sopRows_eq`), so the cover is one where some product holds
(`Blif.coverValue_sopRows`).  A table that is cut or extended to one pair for each input of each product
has the same rows (`Blif.sopRows_resize`).
-/

namespace CircuitLowering

namespace Bits

/-! ### Tables -/

/-- The bit at a place of a table.  A table goes on with zeros. -/
def tableBit (table : List Bit) (place : Nat) : Bit := table.getD place .zero

def literalPair (width : Nat) (table : List Bit) (t j : Nat) : Bit × Bit :=
  (tableBit table (2 * width * t + 2 * j), tableBit table (2 * width * t + 2 * j + 1))

/-- Whether product `t` of a table over `width` inputs holds of the values of the inputs. -/
def ProductHolds (width : Nat) (table : List Bit) (t : Nat) (values : List Bool) : Prop :=
  ∀ j value, values[j]? = some value →
    ¬ (literalPair width table t j = (.one, .zero) ∧ value = true) ∧
      ¬ (literalPair width table t j = (.zero, .one) ∧ value = false)

theorem tableBit_drop (table : List Bit) (start place : Nat) :
    tableBit (table.drop start) place = tableBit table (start + place) := by
  simp only [tableBit, List.getD_eq_getElem?_getD, List.getElem?_drop]

/-- What resizing cuts off lies beyond the size, and what it adds was read as zero before. -/
theorem tableBit_resize (table : List Bit) {size place : Nat} (h : place < size) :
    tableBit (resize size table) place = tableBit table place := by
  unfold tableBit resize
  rw [List.getD_eq_getElem?_getD, List.getD_eq_getElem?_getD, List.getElem?_append, List.length_take]
  split
  · rw [List.getElem?_take_of_lt h]
  · next hbeyond =>
    have htable : table.length ≤ place := by omega
    rw [List.getElem?_eq_none htable, List.getElem?_replicate]
    split <;> rfl

/-- The pairs of all products fit a table of one pair for each input of each product. -/
theorem literalPair_resize (table : List Bit) {width depth t j : Nat} (ht : t < depth) (hj : j < width) :
    literalPair width (resize (2 * width * depth) table) t j = literalPair width table t j := by
  have hproducts : 2 * width * (t + 1) ≤ 2 * width * depth := Nat.mul_le_mul_left (2 * width) ht
  rw [Nat.mul_succ] at hproducts
  have hsecond : 2 * width * t + 2 * j + 1 < 2 * width * depth := by omega
  rw [literalPair, tableBit_resize table (Nat.lt_of_succ_lt hsecond), tableBit_resize table hsecond,
    literalPair]

end Bits

namespace Blif

open Bits

/-! ### Rows -/

/-- The row of a product: the literals of all inputs in their order. -/
def productRow (width : Nat) (table : List Bit) (t : Nat) : String :=
  String.ofList ((List.range width).map fun j =>
    literal (literalPair width table t j).1 (literalPair width table t j).2) ++ " 1"

/-- Pairs that are missing at the end of a table are read as zeros. -/
theorem product_eq (width : Nat) (table : List Bit) :
    product width table =
      (List.range width).map fun j => literal (tableBit table (2 * j)) (tableBit table (2 * j + 1)) := by
  induction width generalizing table with
  | zero => rfl
  | succ width ih =>
    have hstep : product (width + 1) table =
        literal (tableBit table 0) (tableBit table 1) :: product width (table.drop 2) := by
      rcases table with _ | ⟨a, _ | ⟨b, rest⟩⟩
      · rfl
      · rfl
      · rfl
    rw [hstep, ih, List.range_succ_eq_map, List.map_cons, List.map_map]
    congr 1
    apply List.map_congr_left
    intro j _
    have hfirst : 2 + 2 * j = 2 * (j + 1) := by omega
    have hsecond : 2 + (2 * j + 1) = 2 * (j + 1) + 1 := by omega
    rw [tableBit_drop, tableBit_drop, hfirst, hsecond]
    rfl

theorem sopRows_eq (width depth : Nat) (table : List Bit) :
    sopRows width depth table = (List.range depth).map (productRow width table) := by
  induction depth generalizing table with
  | zero => rfl
  | succ depth ih =>
    rw [sopRows, ih, List.range_succ_eq_map, List.map_cons, List.map_map]
    congr 1
    · rw [productRow, product_eq, rowEnd]
      simp only [literalPair, Nat.mul_zero, Nat.zero_add]
    · apply List.map_congr_left
      intro t _
      have hskip (place : Nat) : 2 * width + (2 * width * t + place) =
          2 * width * (t + 1) + place := by
        rw [Nat.mul_succ]
        omega
      unfold Function.comp productRow literalPair
      simp only [tableBit_drop, Nat.add_assoc, hskip]

theorem sopRows_resize (width depth : Nat) (table : List Bit) :
    sopRows width depth (resize (2 * width * depth) table) = sopRows width depth table := by
  rw [sopRows_eq, sopRows_eq]
  apply List.map_congr_left
  intro t ht
  unfold productRow
  congr 2
  apply List.map_congr_left
  intro j hj
  rw [literalPair_resize table (List.mem_range.1 ht) (List.mem_range.1 hj)]

/-- A table whose places have numbers of 64 bits is written unless its rows are too many or too long. -/
theorem sopFits_iff {width depth : Nat} (hplaces : 2 * width * depth < UInt64.size) :
    sopFits width depth = true ↔
      Capacity.textBytes * depth ≤ Capacity.maxBytes ∧ (depth = 0 ∨ width < 2 ^ 62) := by
  have hrow : rowFits width = true ↔ width < 2 ^ 62 := Capacity.fits_textRoom_iff (by decide) (by decide)
  rw [sopFits, decide_eq_true (Nat.le_of_lt hplaces), Bool.and_true, Bool.and_eq_true, Bool.or_eq_true,
    decide_eq_true_iff, hrow, Capacity.fits_iff]

/-! ### Values -/

theorem literal_cases (a b : Bit) : literal a b = '0' ∨ literal a b = '1' ∨ literal a b = '-' := by
  cases a <;> cases b <;> decide

theorem isRow_productRow (width : Nat) (table : List Bit) (t : Nat) :
    IsRow width (productRow width table t) := by
  refine ⟨_, rfl, by simp, ?_⟩
  intro letter hletter
  obtain ⟨j, -, rfl⟩ := List.mem_map.mp hletter
  exact literal_cases _ _

theorem admits_literal (a b : Bit) (value : Bool) :
    admits (literal a b) value = true ↔
      ¬ ((a, b) = (.one, .zero) ∧ value = true) ∧ ¬ ((a, b) = (.zero, .one) ∧ value = false) := by
  cases a <;> cases b <;> cases value <;> decide

/-- A row with one letter for each column matches where each letter admits the value of its column. -/
theorem rowMatches_append {values : List Bool} {letters : List Char}
    (h : letters.length = values.length) :
    rowMatches values (letters ++ [' ', '1']) = true ↔
      ∀ (j : Nat) value letter, values[j]? = some value → letters[j]? = some letter →
        admits letter value = true := by
  induction values generalizing letters with
  | nil =>
    rw [List.eq_nil_of_length_eq_zero h]
    simp [rowMatches]
  | cons value values ih =>
    rcases letters with _ | ⟨letter, letters⟩
    · cases h
    · rw [List.length_cons, List.length_cons, Nat.add_right_cancel_iff] at h
      rw [List.cons_append, rowMatches, Bool.and_eq_true, ih h]
      constructor
      · intro hall j
        cases j with
        | zero => simpa using hall.1
        | succ j => simpa using hall.2 j
      · intro hall
        constructor
        · simpa using hall 0 value letter
        · intro j
          simpa using hall (j + 1)

/-- The row of a product matches the values of which the product holds. -/
theorem rowMatches_productRow (values : List Bool) (table : List Bit) (t : Nat) :
    rowMatches values (productRow values.length table t).toList = true ↔
      ProductHolds values.length table t values := by
  rw [productRow, String.toList_append, String.toList_ofList]
  refine (rowMatches_append (by simp)).trans ?_
  unfold ProductHolds
  apply forall₂_congr
  intro j value
  constructor
  · intro h hvalue
    have hj : j < values.length := (List.getElem?_eq_some_iff.1 hvalue).1
    rw [← admits_literal]
    apply h _ hvalue
    rw [List.getElem?_map, List.getElem?_range hj]
    rfl
  · intro h letter hvalue hletter
    have hj : j < values.length := (List.getElem?_eq_some_iff.1 hvalue).1
    rw [List.getElem?_map, List.getElem?_range hj, Option.map_some, Option.some.injEq] at hletter
    rw [← hletter, admits_literal]
    exact h hvalue

/-- The cover of a sum of products is one where some product holds. -/
theorem coverValue_sopRows (values : List Bool) (depth : Nat) (table : List Bit) :
    coverValue (sopRows values.length depth table) values = true ↔
      ∃ t < depth, ProductHolds values.length table t values := by
  rw [coverValue, sopRows_eq, List.any_map, List.any_eq_true]
  apply exists_congr
  intro t
  rw [List.mem_range, Function.comp_apply, rowMatches_productRow]

end Blif

end CircuitLowering
