import CircuitLowering.Design.Partition
import Mathlib.Logic.Relation
import Mathlib.Order.MinMax

/-!
# Classes of a partition

Two numbers are in one class of a partition when they have the same root.  Halving a path changes no
root (`find_eq`), and joining two numbers joins their classes and no others
(`root_union_eq_iff`).  So the partition that is left when pairs of numbers are joined, one after the
other, is that of the least equivalence which relates each of these pairs
(`root_unionAll_discrete`).
-/

namespace CircuitLowering

/-- A map that takes what is related to what is equivalent does so for the whole equivalence. -/
theorem eqvGen_map {α β : Type} {r : α → α → Prop} {s : β → β → Prop} (f : α → β)
    (h : ∀ a b, r a b → Relation.EqvGen s (f a) (f b)) {a b : α} (hab : Relation.EqvGen r a b) :
    Relation.EqvGen s (f a) (f b) := by
  induction hab with
  | rel a b hab => exact h a b hab
  | refl a => exact .refl _
  | symm a b _ ih => exact .symm _ _ ih
  | trans a b c _ _ ihab ihbc => exact .trans _ _ _ ihab ihbc

namespace Partition

variable {p : Partition} {i j k l : Nat}

/-! ### Roots -/

theorem root_of_parentOf_eq (h : p.parentOf i = i) : p.root i = i := by
  rw [root, if_pos h]

theorem root_parentOf (p : Partition) (i : Nat) : p.root (p.parentOf i) = p.root i := by
  by_cases h : p.parentOf i = i
  · rw [h]
  · conv_rhs => rw [root, if_neg h]

theorem parentOf_root (p : Partition) (i : Nat) : p.parentOf (p.root i) = p.root i := by
  induction i using Nat.strongRecOn with
  | ind i ih =>
    by_cases h : p.parentOf i = i
    · rw [root_of_parentOf_eq h, h]
    · rw [← root_parentOf]
      exact ih _ (Nat.lt_of_le_of_ne (p.parentOf_le i) h)

theorem root_le (p : Partition) (i : Nat) : p.root i ≤ i := by
  induction i using Nat.strongRecOn with
  | ind i ih =>
    by_cases h : p.parentOf i = i
    · exact Nat.le_of_eq (root_of_parentOf_eq h)
    · rw [← root_parentOf]
      exact Nat.le_trans (ih _ (Nat.lt_of_le_of_ne (p.parentOf_le i) h)) (p.parentOf_le i)

/-! ### New parents -/

theorem parentOf_link (child parent : Nat) (h : parent ≤ child) (i : Nat) :
    (p.link child parent h).parentOf i =
      if i = child ∧ child < p.size then parent else p.parentOf i := by
  unfold parentOf link size
  dsimp only
  by_cases hi : i < p.parent.size
  · rw [dif_pos (by simpa using hi), dif_pos hi, Array.getElem_setIfInBounds (by simpa using hi)]
    by_cases hchild : i = child
    · subst hchild
      simp [hi]
    · simp [hchild, Ne.symm hchild]
  · rw [dif_neg (by simpa using hi), dif_neg hi, if_neg]
    rintro ⟨rfl, hchild⟩
    exact hi hchild

/-- A smaller parent of the same class changes no root. -/
theorem root_link_of_root_eq {child parent : Nat} (hlt : parent < child)
    (hsame : p.root parent = p.root child) (i : Nat) :
    (p.link child parent (Nat.le_of_lt hlt)).root i = p.root i := by
  induction i using Nat.strongRecOn with
  | ind i ih =>
    have hparent := parentOf_link (p := p) child parent (Nat.le_of_lt hlt) i
    rw [← root_parentOf, hparent]
    split
    · next h =>
      rw [ih parent (h.1 ▸ hlt), hsame, h.1]
    · next h =>
      rw [if_neg h] at hparent
      by_cases hroot : p.parentOf i = i
      · rw [hroot] at hparent ⊢
        rw [root_of_parentOf_eq hparent, root_of_parentOf_eq hroot]
      · rw [ih _ (Nat.lt_of_le_of_ne (p.parentOf_le i) hroot), root_parentOf]

/-- When a root gets another root as its parent, its class joins that of the other. -/
theorem root_link_of_roots {child parent : Nat} (h : parent ≤ child) (hchild : p.parentOf child = child)
    (hparent : p.parentOf parent = parent) (hlt : child < p.size) (i : Nat) :
    (p.link child parent h).root i = if p.root i = child then parent else p.root i := by
  have hstays : (p.link child parent h).parentOf parent = parent := by
    rw [parentOf_link]
    split
    · rfl
    · exact hparent
  induction i using Nat.strongRecOn with
  | ind i ih =>
    by_cases hi : i = child
    · subst hi
      rw [← root_parentOf, parentOf_link, if_pos ⟨rfl, hlt⟩, root_of_parentOf_eq hstays,
        root_of_parentOf_eq hchild, if_pos rfl]
    · have hsame : (p.link child parent h).parentOf i = p.parentOf i := by
        rw [parentOf_link, if_neg fun hboth => hi hboth.1]
      by_cases hroot : p.parentOf i = i
      · rw [root_of_parentOf_eq (hsame.trans hroot), root_of_parentOf_eq hroot, if_neg hi]
      · rw [← root_parentOf, hsame, ih _ (Nat.lt_of_le_of_ne (p.parentOf_le i) hroot), root_parentOf]

/-! ### Walking to the root -/

/-- The way to the root ends at the root and changes no class. -/
theorem find_eq (p : Partition) (i : Nat) :
    (p.find i).1 = p.root i ∧ (∀ k, (p.find i).2.root k = p.root k) ∧ (p.find i).2.size = p.size := by
  induction i using Nat.strongRecOn generalizing p with
  | ind i ih =>
    rw [find]
    by_cases h : p.parentOf i = i
    · rw [if_pos h]
      exact ⟨(root_of_parentOf_eq h).symm, fun _ => rfl, rfl⟩
    · rw [if_neg h]
      have hlt : p.parentOf (p.parentOf i) < i :=
        Nat.lt_of_le_of_lt (p.parentOf_le _) (Nat.lt_of_le_of_ne (p.parentOf_le i) h)
      have hsame : p.root (p.parentOf (p.parentOf i)) = p.root i := by
        rw [root_parentOf, root_parentOf]
      have hlink := root_link_of_root_eq hlt hsame
      obtain ⟨hfound, hroots, hsize⟩ :=
        ih _ hlt (p.link i (p.parentOf (p.parentOf i)) (Nat.le_of_lt hlt))
      refine ⟨?_, ?_, hsize.trans (size_link _ _ _ _)⟩
      · rw [hfound, hlink, hsame]
      · intro k
        rw [hroots, hlink]

/-! ### Joining -/

theorem size_union (p : Partition) (i j : Nat) : (p.union i j).size = p.size := by
  obtain ⟨-, -, hi⟩ := p.find_eq i
  obtain ⟨-, -, hj⟩ := (p.find i).2.find_eq j
  unfold union
  dsimp only
  rw [size_link, hj, hi]

theorem root_union (hi : i < p.size) (hj : j < p.size) (k : Nat) :
    (p.union i j).root k =
      if p.root k = max (p.root i) (p.root j) then min (p.root i) (p.root j) else p.root k := by
  obtain ⟨hfoundi, hrootsi, hsizei⟩ := p.find_eq i
  obtain ⟨hfoundj, hrootsj, hsizej⟩ := (p.find i).2.find_eq j
  have hroots (k : Nat) : ((p.find i).2.find j).2.root k = p.root k := (hrootsj k).trans (hrootsi k)
  have hroot (k : Nat) : ((p.find i).2.find j).2.parentOf (p.root k) = p.root k := by
    rw [← hroots, parentOf_root]
  have hmax : max (p.root i) (p.root j) < ((p.find i).2.find j).2.size := by
    rw [hsizej, hsizei]
    exact max_lt (Nat.lt_of_le_of_lt (p.root_le i) hi) (Nat.lt_of_le_of_lt (p.root_le j) hj)
  have hlink := root_link_of_roots (p := ((p.find i).2.find j).2)
    (Nat.le_trans (Nat.min_le_left _ _) (Nat.le_max_left (p.root i) (p.root j)))
    (by rcases max_choice (p.root i) (p.root j) with h | h <;> rw [h, hroot])
    (by rcases min_choice (p.root i) (p.root j) with h | h <;> rw [h, hroot]) hmax k
  rw [hroots] at hlink
  rw [← hlink]
  unfold union
  simp only [hfoundi, hfoundj, hrootsi]

/-- Joining two numbers joins their classes and no others. -/
theorem root_union_eq_iff (hi : i < p.size) (hj : j < p.size) :
    (p.union i j).root k = (p.union i j).root l ↔
      p.root k = p.root l ∨ (p.root k = p.root i ∧ p.root l = p.root j) ∨
        (p.root k = p.root j ∧ p.root l = p.root i) := by
  rw [root_union hi hj, root_union hi hj]
  split <;> split <;> omega

/-- Joining pairs leads to the least equivalence that has the classes from before and the pairs. -/
theorem root_unionAll_eq_iff {pairs : List (Nat × Nat)}
    (h : ∀ pair ∈ pairs, pair.1 < p.size ∧ pair.2 < p.size) :
    (p.unionAll pairs).root k = (p.unionAll pairs).root l ↔
      Relation.EqvGen (fun a b => p.root a = p.root b ∨ (a, b) ∈ pairs) k l := by
  induction pairs generalizing p with
  | nil =>
    constructor
    · intro hroot
      exact .rel _ _ (Or.inl hroot)
    · intro hgen
      induction hgen with
      | rel a b hab => exact hab.resolve_right List.not_mem_nil
      | refl a => rfl
      | symm a b _ ih => exact ih.symm
      | trans a b c _ _ ihab ihbc => exact ihab.trans ihbc
  | cons pair pairs ih =>
    obtain ⟨i, j⟩ := pair
    obtain ⟨hi, hj⟩ := h (i, j) List.mem_cons_self
    have hrest := ih (p := p.union i j) fun pair hpair => by
      rw [size_union]
      exact h pair (List.mem_cons_of_mem _ hpair)
    refine hrest.trans ?_
    constructor
    · intro hgen
      refine eqvGen_map id ?_ hgen
      intro a b hab
      -- a class after the first join is one from before, or goes through the joined pair
      have hjoin : Relation.EqvGen (fun a b => p.root a = p.root b ∨ (a, b) ∈ (i, j) :: pairs) i j :=
        .rel _ _ (Or.inr List.mem_cons_self)
      rcases hab with hab | hab
      · rcases (root_union_eq_iff hi hj).mp hab with hsame | ⟨ha, hb⟩ | ⟨ha, hb⟩
        · exact .rel _ _ (Or.inl hsame)
        · exact .trans _ _ _ (.rel _ _ (Or.inl ha)) (.trans _ _ _ hjoin (.rel _ _ (Or.inl hb.symm)))
        · exact .trans _ _ _ (.rel _ _ (Or.inl ha))
            (.trans _ _ _ (.symm _ _ hjoin) (.rel _ _ (Or.inl hb.symm)))
      · exact .rel _ _ (Or.inr (List.mem_cons_of_mem _ hab))
    · intro hgen
      refine hgen.mono ?_
      intro a b hab
      rcases hab with hab | hab
      · exact Or.inl ((root_union_eq_iff hi hj).mpr (Or.inl hab))
      · rcases List.mem_cons.mp hab with hab | hab
        · cases hab
          exact Or.inl ((root_union_eq_iff hi hj).mpr (Or.inr (Or.inl ⟨rfl, rfl⟩)))
        · exact Or.inr hab

theorem root_discrete (n i : Nat) : (discrete n).root i = i := by
  apply root_of_parentOf_eq
  unfold parentOf discrete
  dsimp only
  split
  · simp
  · rfl

/-- When each number is a class of its own before pairs are joined, the classes are those of the least
equivalence that has the pairs. -/
theorem root_unionAll_discrete {n : Nat} {pairs : List (Nat × Nat)}
    (h : ∀ pair ∈ pairs, pair.1 < n ∧ pair.2 < n) :
    ((discrete n).unionAll pairs).root k = ((discrete n).unionAll pairs).root l ↔
      Relation.EqvGen (fun a b => (a, b) ∈ pairs) k l := by
  have hsize : (discrete n).size = n := by simp [size, discrete]
  rw [root_unionAll_eq_iff fun pair hpair => by rw [hsize]; exact h pair hpair]
  simp only [root_discrete]
  constructor
  · intro hgen
    refine eqvGen_map id ?_ hgen
    intro a b hab
    rcases hab with rfl | hab
    · exact .refl _
    · exact .rel _ _ hab
  · intro hgen
    exact hgen.mono fun a b hab => Or.inr hab

end Partition

end CircuitLowering
