import CircuitLowering.Failure

/-!
# How much fits memory

A list is held in one block of memory, and no block has more than `2 ^ 63 - 1` bytes. How long a
list may be therefore depends on the size of its items. A longer list is refused before it is built.

A list that is added to may be held in a block with room for more items than it has, and the block
counts: when it is full, the next one has room for twice as many.

A text that is put together from rows and names in memory is not counted: it takes no more than these
take already.
-/

namespace CircuitLowering.Capacity

/-- The bytes of the largest block. -/
def maxBytes : Nat := 9223372036854775807

def letterBytes : Nat := 1

def numberBytes : Nat := 8

def textBytes : Nat := 24

def signalBitBytes : Nat := 32

/-- Whether a list of `count` items of `itemBytes` bytes each fits. -/
def fits (itemBytes count : Nat) : Bool := itemBytes * count ≤ maxBytes

/-- The room of a block once it must hold `count` items: a full block makes way for one of twice the
room or, if that is not enough, of just the room that is needed, and none has room for fewer than
`least` items. -/
def grow (least room count : Nat) : Nat :=
  if count ≤ room then room else max least (max (2 * room) count)

/-- The room of a text of `collected` letters, taken in at once, to which `added` more are added. -/
def textRoom (collected added : Nat) : Nat := grow 8 (grow 8 0 collected) (collected + added)

/-- The room of a list whose items came one by one. -/
def listRoom (count : Nat) : Nat :=
  (List.range count).foldl (fun room held => grow 4 room (held + 1)) 0

def ensure (itemBytes count : Nat) : Except Fault Unit :=
  if fits itemBytes count then .ok () else .error .overflow

theorem fits_iff {itemBytes count : Nat} :
    fits itemBytes count = true ↔ itemBytes * count ≤ maxBytes := decide_eq_true_iff

theorem ensure_eq_ok_iff {itemBytes count : Nat} {u : Unit} :
    ensure itemBytes count = .ok u ↔ fits itemBytes count = true := by
  unfold ensure
  split <;> simp_all

end CircuitLowering.Capacity
