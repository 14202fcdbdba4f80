import CircuitLowering.Proofs.Design.Partition
import Mathlib.Order.Bounds.Defs

/-!
# Walks over bare parents

A partition carries the proof that parents are not larger than their children, so its walks to a root end
by construction.  Over a bare array of parents a walk is a loop that may leave the array or never end
(`Partition.Walk`).  Joins and walks that start where each number is its own parent do end, with the parents
of the partition (`Partition.runs_iff`).  So the least number of a class in the least equivalence that
relates the joined pairs is what a walk finds (`Partition.finds_least`).
-/

namespace CircuitLowering.Partition

/-! ### Loops -/

/-- The walk from a number over bare parents, with the root that it finds and the parents that it leaves.
It stops at a number that is its own parent.  From any other number, it gives that number the parent of its
parent and goes on there.  There is no walk that leaves the array and none that does not end. -/
inductive Walk : Array Nat → Nat → Nat → Array Nat → Prop where
  | stop {parents : Array Nat} {i : Nat} (hroot : parents[i]? = some i) : Walk parents i i parents
  | halve {parents parents' : Array Nat} {i parent next root : Nat}
      (hparent : parents[i]? = some parent) (hne : parent ≠ i) (hnext : parents[parent]? = some next)
      (rest : Walk (parents.setIfInBounds i next) next root parents') : Walk parents i root parents'

/-- What joining two numbers does to bare parents: the larger of their roots gets the smaller one as its
parent, unless they are the same. -/
def Joins (parents : Array Nat) (i j : Nat) (parents' : Array Nat) : Prop :=
  ∃ a b middle after, Walk parents i a middle ∧ Walk middle j b after ∧
    parents' = if a ≠ b then after.setIfInBounds (max a b) (min a b) else after

inductive Call where
  | union (i j : Nat)
  | find (i : Nat)
deriving DecidableEq, Repr

namespace Call

def InRange (n : Nat) : Call → Prop
  | union i j => i < n ∧ j < n
  | find i => i < n

instance (n : Nat) (call : Call) : Decidable (call.InRange n) :=
  match call with
  | union i j => inferInstanceAs (Decidable (i < n ∧ j < n))
  | find i => inferInstanceAs (Decidable (i < n))

def apply (p : Partition) : Call → Partition
  | union i j => p.union i j
  | find i => (p.find i).2

/-- What a call does to bare parents. -/
def Changes (parents : Array Nat) : Call → Array Nat → Prop
  | union i j, parents' => Joins parents i j parents'
  | find i, parents' => ∃ root, Walk parents i root parents'

def pair? : Call → Option (Nat × Nat)
  | union i j => some (i, j)
  | find _ => none

end Call

/-- What calls, one after the other, do to bare parents. -/
inductive Runs : Array Nat → List Call → Array Nat → Prop where
  | nil {parents : Array Nat} : Runs parents [] parents
  | cons {parents middle after : Array Nat} {call : Call} {calls : List Call}
      (hfirst : call.Changes parents middle) (hrest : Runs middle calls after) :
      Runs parents (call :: calls) after

def applyAll (p : Partition) (calls : List Call) : Partition := calls.foldl Call.apply p

def Linked (parents : Array Nat) : Nat → Nat → Prop := Relation.EqvGen fun i j => parents[i]? = some j

def Joined (calls : List Call) : Nat → Nat → Prop := Relation.EqvGen fun i j => .union i j ∈ calls

variable {p q : Partition} {parents parents' parents'' : Array Nat} {i j k n root root' : Nat}
  {call : Call} {calls : List Call}

/-! ### Loops end in one way -/

theorem Walk.unique (h : Walk parents i root parents') (h' : Walk parents i root' parents'') :
    root = root' ∧ parents' = parents'' := by
  induction h with
  | stop hroot =>
    cases h' with
    | stop => exact ⟨rfl, rfl⟩
    | halve hparent hne hnext rest =>
      rw [hroot, Option.some.injEq] at hparent
      exact absurd hparent.symm hne
  | halve hparent hne hnext rest ih =>
    cases h' with
    | stop hroot =>
      rw [hparent, Option.some.injEq] at hroot
      exact absurd hroot hne
    | halve hparent' hne' hnext' rest' =>
      rw [hparent, Option.some.injEq] at hparent'
      subst hparent'
      rw [hnext, Option.some.injEq] at hnext'
      subst hnext'
      exact ih rest'

theorem Joins.unique (h : Joins parents i j parents') (h' : Joins parents i j parents'') :
    parents' = parents'' := by
  obtain ⟨a, b, middle, after, hi, hj, rfl⟩ := h
  obtain ⟨a', b', middle', after', hi', hj', rfl⟩ := h'
  obtain ⟨rfl, rfl⟩ := hi.unique hi'
  obtain ⟨rfl, rfl⟩ := hj.unique hj'
  rfl

theorem Call.Changes.unique (h : call.Changes parents parents') (h' : call.Changes parents parents'') :
    parents' = parents'' := by
  cases call with
  | union i j => exact Joins.unique h h'
  | find i =>
    obtain ⟨root, h⟩ := h
    obtain ⟨root', h'⟩ := h'
    exact (h.unique h').2

theorem Runs.unique (h : Runs parents calls parents') (h' : Runs parents calls parents'') :
    parents' = parents'' := by
  induction h with
  | nil =>
    cases h'
    rfl
  | cons hfirst hrest ih =>
    cases h' with
    | cons hfirst' hrest' =>
      obtain rfl := hfirst.unique hfirst'
      exact ih hrest'

/-! ### Partitions do what the loops do -/

theorem getElem?_parent (hi : i < p.size) : p.parent[i]? = some (p.parentOf i) := by
  have hsize : i < p.parent.size := hi
  rw [parentOf, dif_pos hsize, Array.getElem?_eq_getElem hsize]

theorem parentOf_lt (hi : i < p.size) : p.parentOf i < p.size :=
  Nat.lt_of_le_of_lt (p.parentOf_le i) hi

theorem root_lt (hi : i < p.size) : p.root i < p.size :=
  Nat.lt_of_le_of_lt (p.root_le i) hi

/-- The walk from a number of the partition ends: each step goes to a smaller number. -/
theorem walk_find (hi : i < p.size) : Walk p.parent i (p.find i).1 (p.find i).2.parent := by
  induction i using Nat.strongRecOn generalizing p with
  | ind i ih =>
    have hparent := getElem?_parent hi
    rw [find]
    by_cases hroot : p.parentOf i = i
    · rw [if_pos hroot]
      rw [hroot] at hparent
      exact .stop hparent
    · rw [if_neg hroot]
      have hlt : p.parentOf (p.parentOf i) < i :=
        Nat.lt_of_le_of_lt (p.parentOf_le _) (Nat.lt_of_le_of_ne (p.parentOf_le i) hroot)
      have hsize : p.parentOf (p.parentOf i) <
          (p.link i (p.parentOf (p.parentOf i)) (Nat.le_of_lt hlt)).size := by
        rw [size_link]
        exact parentOf_lt (parentOf_lt hi)
      exact .halve hparent hroot (getElem?_parent (parentOf_lt hi)) (ih _ hlt hsize)

theorem joins_union (hi : i < p.size) (hj : j < p.size) :
    Joins p.parent i j (p.union i j).parent := by
  obtain ⟨-, -, hsizei⟩ := p.find_eq i
  obtain ⟨hroot, hroots, hsizej⟩ := (p.find i).2.find_eq j
  have hj' : j < (p.find i).2.size := hsizei ▸ hj
  refine ⟨_, _, _, _, walk_find hi, walk_find hj', ?_⟩
  change Array.setIfInBounds _ _ _ = _
  split
  · rfl
  · next hsame =>
    rw [not_ne_iff] at hsame
    -- the common root is its own parent already
    have hself : ((p.find i).2.find j).2.parent[((p.find i).2.find j).1]? =
        some ((p.find i).2.find j).1 := by
      rw [getElem?_parent (by rw [hsizej, hroot]; exact root_lt hj'), hroot,
        ← hroots j, parentOf_root]
    rw [hsame, max_self, min_self]
    ext1
    · exact Array.size_setIfInBounds
    · next k hk hk' =>
      rw [Array.getElem_setIfInBounds hk']
      split
      · next heq =>
        subst heq
        exact (Array.getElem_eq_iff.mpr hself).symm
      · rfl

theorem size_apply (p : Partition) (call : Call) : (call.apply p).size = p.size := by
  cases call with
  | union i j => exact p.size_union i j
  | find i => exact (p.find_eq i).2.2

theorem changes_apply (h : call.InRange p.size) : call.Changes p.parent (call.apply p).parent := by
  cases call with
  | union i j => exact joins_union h.1 h.2
  | find i => exact ⟨_, walk_find h⟩

theorem runs_applyAll (h : ∀ call ∈ calls, call.InRange p.size) :
    Runs p.parent calls (p.applyAll calls).parent := by
  induction calls generalizing p with
  | nil => exact .nil
  | cons call calls ih =>
    refine .cons (changes_apply (h call List.mem_cons_self)) (ih fun call' hcall' => ?_)
    rw [size_apply]
    exact h call' (List.mem_cons_of_mem _ hcall')

theorem size_applyAll (p : Partition) (calls : List Call) : (p.applyAll calls).size = p.size := by
  induction calls generalizing p with
  | nil => rfl
  | cons call calls ih => exact (ih (call.apply p)).trans (size_apply p call)

theorem runs_iff (h : ∀ call ∈ calls, call.InRange p.size) :
    Runs p.parent calls parents ↔ parents = (p.applyAll calls).parent := by
  constructor
  · intro hrun
    exact hrun.unique (runs_applyAll h)
  · rintro rfl
    exact runs_applyAll h

/-! ### Classes -/

/-- Numbers are in one class where the parents lead to one root. -/
theorem linked_iff (p : Partition) : Linked p.parent i j ↔ p.root i = p.root j := by
  have hroot (i : Nat) : Linked p.parent i (p.root i) := by
    induction i using Nat.strongRecOn with
    | ind i ih =>
      by_cases h : p.parentOf i = i
      · rw [root_of_parentOf_eq h]
        exact .refl i
      · have hi : i < p.size := by
          by_contra hout
          exact h (dif_neg hout)
        rw [← root_parentOf]
        exact .trans _ _ _ (.rel _ _ (getElem?_parent hi))
          (ih _ (Nat.lt_of_le_of_ne (p.parentOf_le i) h))
  constructor
  · intro h
    induction h with
    | rel i j hij =>
      obtain ⟨hi, rfl⟩ := Array.getElem?_eq_some_iff.mp hij
      have hparent : p.parentOf i = p.parent[i] := dif_pos hi
      rw [← hparent, root_parentOf]
    | refl i => rfl
    | symm i j _ ih => exact ih.symm
    | trans i j k _ _ ihij ihjk => exact ihij.trans ihjk
  · intro h
    exact .trans _ _ _ (hroot i) (h ▸ .symm _ _ (hroot j))

/-- Walks do not count for the roots. -/
theorem root_applyAll (hsize : p.size = q.size) (hroots : ∀ k, p.root k = q.root k)
    (h : ∀ call ∈ calls, call.InRange p.size) (k : Nat) :
    (p.applyAll calls).root k = (q.unionAll (calls.filterMap Call.pair?)).root k := by
  induction calls generalizing p q with
  | nil => exact hroots k
  | cons call calls ih =>
    have hrest : ∀ call' ∈ calls, call'.InRange (call.apply p).size := by
      intro call' hcall'
      rw [size_apply]
      exact h call' (List.mem_cons_of_mem _ hcall')
    cases call with
    | union i j =>
      obtain ⟨hi, hj⟩ := h (.union i j) List.mem_cons_self
      refine ih ((size_union p i j).trans (hsize.trans (size_union q i j).symm)) ?_ hrest
      intro k
      change (p.union i j).root k = (q.union i j).root k
      rw [root_union hi hj, root_union (hsize ▸ hi) (hsize ▸ hj)]
      simp only [hroots]
    | find i =>
      obtain ⟨-, hwalk, hsame⟩ := p.find_eq i
      exact ih (hsame.trans hsize) (fun k => (hwalk k).trans (hroots k)) hrest

theorem size_discrete (n : Nat) : (discrete n).size = n := by
  simp [size, discrete]

theorem root_applyAll_discrete (h : ∀ call ∈ calls, call.InRange n) :
    ((discrete n).applyAll calls).root i = ((discrete n).applyAll calls).root j ↔ Joined calls i j := by
  have hrange : ∀ call ∈ calls, call.InRange (discrete n).size := by
    rw [size_discrete]
    exact h
  have hpair {call : Call} {i j : Nat} : call.pair? = some (i, j) ↔ call = .union i j := by
    cases call <;> simp [Call.pair?]
  have hpairs : ∀ pair ∈ calls.filterMap Call.pair?, pair.1 < n ∧ pair.2 < n := by
    intro pair hmem
    obtain ⟨call, hcall, hjoin⟩ := List.mem_filterMap.mp hmem
    rw [hpair.mp hjoin] at hcall
    exact h _ hcall
  rw [root_applyAll rfl (fun _ => rfl) hrange, root_applyAll rfl (fun _ => rfl) hrange,
    root_unionAll_discrete hpairs, Joined]
  simp only [List.mem_filterMap, hpair, exists_eq_right]

/-- Joins and walks, in any order, that start where each number is its own parent: each of the loops ends,
and in the one way that the partition goes.  No parent is ever larger than its child, and the parents put
numbers in one class exactly where the joins do.  A walk finds the least number of the class, and the parents
that it leaves make the same classes. -/
theorem finds_least (h : ∀ call ∈ calls, call.InRange n) :
    let p := (discrete n).applyAll calls
    (∀ parents, Runs (Array.range n) calls parents ↔ parents = p.parent) ∧
    p.parent.size = n ∧
    (∀ i (hi : i < p.parent.size), p.parent[i] ≤ i) ∧
    (∀ i j, Linked p.parent i j ↔ Joined calls i j) ∧
    ∀ i < n,
      (∀ root parents, Walk p.parent i root parents ↔
        root = (p.find i).1 ∧ parents = (p.find i).2.parent) ∧
      IsLeast {j | Joined calls i j} (p.find i).1 ∧
      ∀ j k, Linked (p.find i).2.parent j k ↔ Linked p.parent j k := by
  intro p
  have hrange : ∀ call ∈ calls, call.InRange (discrete n).size := by
    rw [size_discrete]
    exact h
  have hsize : p.size = n := (size_applyAll _ _).trans (size_discrete n)
  have hjoined (i j : Nat) : p.root i = p.root j ↔ Joined calls i j := root_applyAll_discrete h
  refine ⟨fun parents => runs_iff hrange, hsize, p.parent_le,
    fun i j => p.linked_iff.trans (hjoined i j), ?_⟩
  intro i hi
  obtain ⟨hfound, hroots, -⟩ := p.find_eq i
  refine ⟨?_, ⟨?_, ?_⟩, ?_⟩
  · intro root parents
    constructor
    · intro hwalk
      exact hwalk.unique (walk_find (hsize ▸ hi))
    · rintro ⟨rfl, rfl⟩
      exact walk_find (hsize ▸ hi)
  · rw [Set.mem_ofPred_eq, ← hjoined, hfound]
    exact (root_of_parentOf_eq (p.parentOf_root i)).symm
  · intro j hj
    rw [hfound, (hjoined i j).mpr hj]
    exact p.root_le j
  · intro j k
    rw [linked_iff, linked_iff, hroots, hroots]

/-- Six numbers, of which all but one become one class in two halves, with a walk in between. -/
def halvedCalls : List Call := [.union 4 5, .union 3 4, .union 1 3, .find 5, .union 0 1]

/-- The last walk goes over one more number and shortens the path once more. -/
theorem finds_least_halvedCalls :
    Runs (Array.range 6) halvedCalls #[0, 0, 2, 1, 3, 3] ∧
      Walk #[0, 0, 2, 1, 3, 3] 5 0 #[0, 0, 2, 1, 3, 1] ∧ IsLeast {j | Joined halvedCalls 5 j} 0 := by
  have hrange : ∀ call ∈ halvedCalls, call.InRange 6 := by decide
  obtain ⟨hruns, -, -, -, hfinds⟩ := finds_least hrange
  obtain ⟨hwalk, hleast, -⟩ := hfinds 5 (by decide)
  have hparents : ((discrete 6).applyAll halvedCalls).parent = #[0, 0, 2, 1, 3, 3] := by decide +kernel
  have hfound : (((discrete 6).applyAll halvedCalls).find 5).1 = 0 := by decide +kernel
  have hleft : (((discrete 6).applyAll halvedCalls).find 5).2.parent = #[0, 0, 2, 1, 3, 1] := by
    decide +kernel
  rw [hfound] at hwalk hleast
  rw [hparents, hleft] at hwalk
  exact ⟨(hruns _).mpr hparents.symm, (hwalk _ _).mpr ⟨rfl, rfl⟩, hleast⟩

end CircuitLowering.Partition
