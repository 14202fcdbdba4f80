import CircuitLowering.Proofs.Design.Nets
import CircuitLowering.Proofs.Queries
import Mathlib.Data.List.Range

/-!
# Labels of nets

All wire bits of a net have one label, which is its constant if it is tied to one, and otherwise a number
that no other net has.  The numbers are taken from two on in the order of the first bits of the nets, and
none is left out (`Module.IsLabelling`).

A net takes its number when the label of one of its bits is first asked for.  What is known by then is the
order in which nets have taken numbers (`Module.Knows`): one question adds at most one net at its end
(`Module.Knows.bit`), and the questions for a signal add the nets of its bits in their turn
(`Module.Knows.signal`).  Nets keep their places, so a label that has been given stays what it was.
-/

namespace CircuitLowering

namespace Labels

/-! ### Constants of nets -/

end Labels

/-! ### Numbers in the order of nets -/

namespace Module

open Labels

variable {m : Module} {a b : SignalBit} {order later : List Nat} {bits : Signal}

/-- The classes of positions that the connections of a module lead to. -/
def partition (m : Module) : Partition :=
  (Partition.discrete (bitCount m)).unionAll
    ((ties m (basesFrom 0 m.wires.entries)).filterMap Tie.join?)

def constants (m : Module) : Array (Option Bit) :=
  (tieAll m.partition ((ties m (basesFrom 0 m.wires.entries)).filterMap Tie.value?)).2

def netOf (m : Module) (b : SignalBit) : Nat := m.partition.root (m.position b)

def constant? (m : Module) : SignalBit → Option Bit
  | .const value => some value
  | .wire name offset => m.constants[m.netOf (.wire name offset)]?.join

/-- The nets that have taken numbers, one after the other, once the label of a bit has been asked for. -/
def arrive (m : Module) (order : List Nat) (b : SignalBit) : List Nat :=
  if m.constant? b = none ∧ m.netOf b ∉ order then order ++ [m.netOf b] else order

/-- The label of a bit when nets have taken numbers in that order. -/
def labelIn (m : Module) (order : List Nat) (b : SignalBit) : Label :=
  match m.constant? b with
  | some value => .const value
  | none => .net (firstNumber + order.idxOf (m.netOf b))

/-- The label of a bit when labels are asked for all wire bits, one after the other. -/
def label (m : Module) : SignalBit → Label := m.labelIn (m.wireBits.foldl m.arrive [])

/-- Whether the net of a bit has a number unless it has a constant. -/
def Arrived (m : Module) (order : List Nat) (b : SignalBit) : Prop :=
  m.constant? b = none → m.netOf b ∈ order

theorem labelIn_of_constant {value : Bit} (h : m.constant? b = some value) :
    m.labelIn order b = .const value := by
  rw [labelIn, h]

theorem labelIn_of_none (h : m.constant? b = none) :
    m.labelIn order b = .net (firstNumber + order.idxOf (m.netOf b)) := by
  rw [labelIn, h]

theorem arrive_of_arrived (h : m.Arrived order b) : m.arrive order b = order :=
  if_neg fun hnew => hnew.2 (h hnew.1)

theorem arrived_arrive (m : Module) (order : List Nat) (b : SignalBit) : m.Arrived (m.arrive order b) b := by
  intro hnone
  unfold arrive
  split
  · exact List.mem_append_right _ List.mem_cons_self
  · next hold => exact Decidable.not_not.mp fun hnet => hold ⟨hnone, hnet⟩

theorem prefix_arrive (m : Module) (order : List Nat) (b : SignalBit) : order <+: m.arrive order b := by
  unfold arrive
  split
  · exact List.prefix_append _ _
  · exact List.prefix_rfl

/-- Nets that have numbers keep their places. -/
theorem prefix_foldl_arrive (m : Module) (order : List Nat) (bits : Signal) :
    order <+: bits.foldl m.arrive order := by
  induction bits generalizing order with
  | nil => exact List.prefix_rfl
  | cons b bits ih => exact (m.prefix_arrive order b).trans (ih _)

theorem Arrived.mono (h : m.Arrived order b) (hgrown : order <+: later) : m.Arrived later b :=
  fun hnone => hgrown.subset (h hnone)

/-- A label that has been given does not depend on those that follow. -/
theorem labelIn_of_prefix (h : m.Arrived order b) (hgrown : order <+: later) :
    m.labelIn later b = m.labelIn order b := by
  cases hconstant : m.constant? b with
  | some value => rw [labelIn_of_constant hconstant, labelIn_of_constant hconstant]
  | none =>
    obtain ⟨rest, rfl⟩ := hgrown
    rw [labelIn_of_none hconstant, labelIn_of_none hconstant, List.idxOf_append_of_mem (h hconstant)]

theorem netOf_lt (hb : b ∈ m.wireBits) : m.netOf b < bitCount m :=
  Nat.lt_of_le_of_lt (m.partition.root_le _) (position_lt hb)

section WellFormed

variable (hm : m.WellFormed)
include hm

/-- What is known of the nets of a module once they have taken numbers in that order. -/
structure Knows (m : Module) (order : List Nat) (ls : Labels) : Prop where
  bases : ls.bases = basesFrom 0 m.wires.entries
  roots : ∀ i, ls.nets.root i = m.partition.root i
  size : ls.nets.size = bitCount m
  constants : ls.constants = m.constants
  numbers : ∀ net < bitCount m, ls.numbers[net]? =
    some (if net ∈ order then some (firstNumber + order.idxOf net) else none)
  next : ls.next = firstNumber + order.length

omit hm in
/-- A net with a constant shows it, a net with a number shows that, and any other takes the next one. -/
theorem Knows.ofRoot {ls : Labels} (hls : m.Knows order ls) (hb : b ∈ m.wireBits) :
    ∃ ls', Labels.ofRoot (m.netOf b) ls = (m.labelIn (m.arrive order b) b, ls') ∧
      m.Knows (m.arrive order b) ls' := by
  have hconstant : ls.constants[m.netOf b]?.join = m.constant? b := by
    rw [hls.constants]
    cases b with
    | const value => cases (mem_wireBits.mp hb).2
    | wire name offset => rfl
  have hnumber := hls.numbers (m.netOf b) (netOf_lt hb)
  rw [Labels.ofRoot, hconstant, hnumber, Option.join_some]
  by_cases harrived : m.Arrived order b
  · rw [arrive_of_arrived harrived]
    refine ⟨ls, ?_, hls⟩
    cases hvalue : m.constant? b with
    | some value => rw [labelIn_of_constant hvalue]
    | none =>
      rw [labelIn_of_none hvalue, if_pos (harrived hvalue)]
  · obtain ⟨hnone, hnew⟩ := Classical.not_imp.mp harrived
    have hgrown : m.arrive order b = order ++ [m.netOf b] := if_pos ⟨hnone, hnew⟩
    have hplace : (order ++ [m.netOf b]).idxOf (m.netOf b) = order.length := by
      rw [List.idxOf_append_of_notMem hnew, List.idxOf_cons_self, Nat.add_zero]
    have hroom : m.netOf b < ls.numbers.size := (Array.getElem?_eq_some_iff.mp hnumber).1
    rw [hgrown, labelIn_of_none hnone, hplace, hnone, if_neg hnew, ← hls.next]
    refine ⟨_, rfl, ⟨hls.bases, hls.roots, hls.size, hls.constants, ?_, ?_⟩⟩
    · intro net hnet
      dsimp only
      rw [Array.getElem?_setIfInBounds, hls.numbers net hnet, hls.next]
      by_cases hsame : m.netOf b = net
      · subst hsame
        simp [hroom, hplace]
      · by_cases hmem : net ∈ order
        · simp [hsame, hmem, List.idxOf_append_of_mem hmem]
        · simp [hsame, hmem, Ne.symm hsame]
    · rw [List.length_append, List.length_singleton, hls.next, Nat.add_assoc]

omit hm in
theorem Knows.bit {ls : Labels} (hls : m.Knows order ls) (hb : m.Declares b) :
    ∃ ls', Labels.bit b ls = .ok (m.labelIn (m.arrive order b) b, ls') ∧
      m.Knows (m.arrive order b) ls' := by
  cases b with
  | const value => exact ⟨ls, rfl, hls⟩
  | wire name offset =>
    have hmem : .wire name offset ∈ m.wireBits := mem_wireBits.mpr ⟨hb, rfl⟩
    have hposition := position?_eq hmem
    obtain ⟨hfound, hroots, hsize⟩ := ls.nets.find_eq (m.position (.wire name offset))
    have hroot := hfound.trans (hls.roots _)
    have hwalked : m.Knows order { ls with nets := (ls.nets.find (m.position (.wire name offset))).2 } :=
      ⟨hls.bases, fun i => (hroots i).trans (hls.roots i), hsize.trans hls.size, hls.constants,
        hls.numbers, hls.next⟩
    obtain ⟨ls', hlabel, hls'⟩ := hwalked.ofRoot hmem
    refine ⟨ls', ?_, hls'⟩
    rw [← hls.bases] at hposition
    simp only [Labels.bit, hposition]
    rw [if_pos (hls.size.symm ▸ position_lt hmem), hroot]
    exact congrArg Except.ok hlabel

omit hm in
/-- The labels of a signal are those that its bits have when all of them have come up. -/
theorem Knows.signal {ls : Labels} (hls : m.Knows order ls) {s : Signal} (hs : ∀ b ∈ s, m.Declares b) :
    ∃ ls', Labels.signal s ls = .ok (s.map (m.labelIn (s.foldl m.arrive order)), ls') ∧
      m.Knows (s.foldl m.arrive order) ls' :=
  exists_mapM_apply (fun b hb _ _ hls => hls.bit (hs b hb))
    (fun b order rest => labelIn_of_prefix (m.arrived_arrive order b) (m.prefix_foldl_arrive _ rest)) hls

end WellFormed

end Module

end CircuitLowering
