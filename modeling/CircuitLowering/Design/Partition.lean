/-!
# Partitions

A partition of the numbers below some bound into classes, kept as a forest in which every number
points to a number that is not larger. The least number of a class is its root and stands for it.
`find` shortens the paths that it walks, which changes no class.
-/

namespace CircuitLowering

/-- A forest over the numbers below `parent.size`. -/
structure Partition where
  parent : Array Nat
  /-- Parents are not larger than their children. -/
  parent_le : ∀ (i : Nat) (h : i < parent.size), parent[i] ≤ i

namespace Partition

def size (p : Partition) : Nat := p.parent.size

/-- The partition of the numbers below `n` in which each is a class of its own. -/
def discrete (n : Nat) : Partition where
  parent := Array.range n
  parent_le := by simp

/-- Lets `child` point to `parent`, which is not larger. -/
def link (p : Partition) (child parent : Nat) (h : parent ≤ child) : Partition where
  parent := p.parent.setIfInBounds child parent
  parent_le := by
    intro i hi
    rw [Array.getElem_setIfInBounds (by simpa using hi)]
    split
    · omega
    · exact p.parent_le i (by simpa using hi)

@[simp] theorem size_link (p : Partition) (child parent : Nat) (h : parent ≤ child) :
    (p.link child parent h).size = p.size := by
  simp [link, size]

/-- The parent of a number, itself when it is out of bounds. -/
def parentOf (p : Partition) (i : Nat) : Nat := if h : i < p.parent.size then p.parent[i] else i

theorem parentOf_le (p : Partition) (i : Nat) : p.parentOf i ≤ i := by
  unfold parentOf
  split
  · exact p.parent_le i _
  · exact Nat.le_refl i

/-- The root of a number: the least number of its class. -/
def root (p : Partition) (i : Nat) : Nat :=
  if p.parentOf i = i then i else p.root (p.parentOf i)
termination_by i
decreasing_by
  have h := p.parentOf_le i
  omega

/-- The root of a number, and the partition with the path to it halved: every number on the way
points to the parent of its parent. -/
def find (p : Partition) (i : Nat) : Nat × Partition :=
  if p.parentOf i = i then (i, p)
  else
    let next := p.parentOf (p.parentOf i)
    (p.link i next (Nat.le_trans (p.parentOf_le _) (p.parentOf_le i))).find next
termination_by i
decreasing_by
  have h₁ := p.parentOf_le i
  have h₂ := p.parentOf_le (p.parentOf i)
  omega

/-- Joins the classes of two numbers. -/
def union (p : Partition) (i j : Nat) : Partition :=
  let (a, p) := p.find i
  let (b, p) := p.find j
  p.link (max a b) (min a b) (by omega)

/-- Joins the pairs of a list, one after the other. -/
def unionAll (p : Partition) (pairs : List (Nat × Nat)) : Partition :=
  pairs.foldl (fun p pair => p.union pair.1 pair.2) p

end Partition

end CircuitLowering
