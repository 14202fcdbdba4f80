import CircuitLowering.Design.Module
import CircuitLowering.Design.Partition

/-!
# Labels of wire bits

The wire bits of a module are numbered through in the order of the wires. Bits that connections join
are one net: they have one label. The label of a net that is tied to a constant is that constant,
that of the last tie if there are several. Any other net takes the next number, from two on, when
the label of one of its bits is first asked for.
-/

namespace CircuitLowering

/-- What a wire bit is called. -/
inductive Label where
  | const (value : Bit)
  | net (number : Nat)
deriving DecidableEq, Repr

/-- What is known of the nets of a module while labels are asked for. A net is a class of positions
and goes by its root. -/
structure Labels where
  /-- The position of the first bit of each wire. -/
  bases : List (String × Nat)
  nets : Partition
  /-- The constants of nets. -/
  constants : Array (Option Bit)
  /-- The numbers that nets have taken. -/
  numbers : Array (Option Nat)
  /-- The number that comes next. -/
  next : Nat

/-- A step that asks for labels. -/
abbrev Labelling := StateT Labels (Except Fault)

namespace Labels

def firstNumber : Nat := 2

/-- The position of the first bit of each wire, when the first wire begins at `start`. -/
def basesFrom (start : Nat) : List (String × Wire) → List (String × Nat)
  | [] => []
  | (name, w) :: rest => (name, start) :: basesFrom (start + w.width) rest

def bitCount (m : Module) : Nat := m.wires.values.foldl (fun count w => count + w.width) 0

/-- The position of a bit; constants and bits of unknown wires have none. -/
def position? (bases : List (String × Nat)) : SignalBit → Option Nat
  | .const _ => none
  | .wire name offset => (bases.lookup name).map (· + offset)

/-! ### Ties -/

/-- What the connection of two bits says. -/
inductive Tie where
  /-- The bits at two positions are one net. -/
  | join (a b : Nat)
  /-- The bit at a position has a constant value. -/
  | value (a : Nat) (value : Bit)
deriving DecidableEq, Repr

namespace Tie

/-- The positions that a tie joins. -/
def join? : Tie → Option (Nat × Nat)
  | join a b => some (a, b)
  | value .. => none

/-- The position and the constant of a tie. -/
def value? : Tie → Option (Nat × Bit)
  | join .. => none
  | value a constant => some (a, constant)

def inBounds (count : Nat) : Tie → Bool
  | join a b => a < count && b < count
  | value a _ => a < count

end Tie

/-- What the connection of two bits says. Bits of unknown wires say nothing. -/
def tie? (bases : List (String × Nat)) (a b : SignalBit) : Option Tie :=
  match position? bases a, position? bases b with
  | some i, some j => some (.join i j)
  | some i, none =>
    match b with
    | .const value => some (.value i value)
    | .wire .. => none
  | none, some j =>
    match a with
    | .const value => some (.value j value)
    | .wire .. => none
  | none, none => none

def pairs (m : Module) : List (SignalBit × SignalBit) :=
  m.connections.flatMap fun (driven, driving) => driven.zip driving

/-- What the connections of a module say, bit by bit. -/
def ties (m : Module) (bases : List (String × Nat)) : List Tie :=
  (pairs m).filterMap fun (a, b) => tie? bases a b

/-- Whether the position of a bit, if it has one, fits 64 bits. -/
def isCountable (bases : List (String × Nat)) (b : SignalBit) : Bool :=
  (position? bases b).all (· < UInt64.size)

/-- The constants of nets, each at the root of its net. -/
def tieAll (nets : Partition) (values : List (Nat × Bit)) : Partition × Array (Option Bit) :=
  values.foldl
    (fun state tied =>
      let (root, nets) := state.1.find tied.1
      (nets, state.2.setIfInBounds root (some tied.2)))
    (nets, Array.replicate nets.size none)

/-- The nets of a module whose wire bits fit memory, none of which has a number yet. A connection
that reaches past the last wire bit is a fault, unless the bit on its other side is that of an
unknown wire. -/
def ofModule (m : Module) : Except Fault Labels := do
  let bases := basesFrom 0 m.wires.entries
  let count := bitCount m
  Capacity.ensure Capacity.numberBytes count
  unless (pairs m).all fun (a, b) => isCountable bases a && isCountable bases b do
    throw .overflow
  let ts := ties m bases
  if ts.all (·.inBounds count) then
    let joined := (Partition.discrete count).unionAll (ts.filterMap Tie.join?)
    let (nets, constants) := tieAll joined (ts.filterMap Tie.value?)
    .ok { bases, nets, constants, numbers := Array.replicate count none, next := firstNumber }
  else .error .bitOutOfRange

/-! ### Labels on demand -/

/-- The label of the net with that root. A net without a constant takes the next number, unless it
has taken one before. -/
def ofRoot (root : Nat) (ls : Labels) : Label × Labels :=
  match ls.constants[root]?.join with
  | some value => (.const value, ls)
  | none =>
    match ls.numbers[root]?.join with
    | some number => (.net number, ls)
    | none =>
      let numbers := ls.numbers.setIfInBounds root (some ls.next)
      (.net ls.next, { ls with numbers, next := ls.next + 1 })

/-- The label of a bit. Bits of unknown wires are unknown; a position past the last wire bit is a
fault. -/
def bit : SignalBit → Labelling Label
  | .const value => return .const value
  | .wire name offset => fun ls =>
    match position? ls.bases (.wire name offset) with
    | none => .ok (.const .unknown, ls)
    | some i =>
      if i < ls.nets.size then
        let (root, nets) := ls.nets.find i
        .ok (ofRoot root { ls with nets })
      else .error .bitOutOfRange

def signal (s : Signal) : Labelling (List Label) := s.mapM bit

end Labels

end CircuitLowering
