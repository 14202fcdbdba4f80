import CircuitLowering.Proofs.Design.Fillers

/-!
# Fresh wires among other changes

A module changes step by step, and fresh wires are asked for in between.  Whatever the changes are, wires only
come in at the end and only become wider, the names of fresh wires are among those that come in, and numbers
that the counter has passed are taken (`Module.Grows`).  So a name that was given once is taken from then on,
and all given names are distinct.

The search for a free number is a loop (`Module.Seeks`).  It ends, as different numbers have different names
and only so many are taken (`Module.seeks_iff`).  In a module that has come of the empty one, all numbers up to
the one that is found are taken, so there are as many wires (`Module.Grows.freshNumber_le`).
-/

namespace CircuitLowering.Module

variable {m m' m'' : Module}

/-! ### The search for a free number -/

/-- Whether the search for a number whose name is free ends at `found` when it begins at `n`. -/
inductive Seeks (m : Module) : Nat → Nat → Prop
  | free {n : Nat} (h : freshName n ∉ m.wires.names) : Seeks m n n
  | taken {n found : Nat} (h : freshName n ∈ m.wires.names) (rest : Seeks m (n + 1) found) : Seeks m n found

theorem Seeks.unique {n found found' : Nat} (h : m.Seeks n found) (h' : m.Seeks n found') : found = found' := by
  induction h with
  | free hfree =>
    cases h' with
    | free => rfl
    | taken htaken => exact absurd htaken hfree
  | taken htaken _ ih =>
    cases h' with
    | free hfree => exact absurd htaken hfree
    | taken _ rest => exact ih rest

theorem Seeks.mem_of_lt {n found i : Nat} (h : m.Seeks n found) (hn : n ≤ i) (hi : i < found) :
    freshName i ∈ m.wires.names := by
  induction h with
  | free => omega
  | taken htaken _ ih =>
    rcases Nat.eq_or_lt_of_le hn with rfl | hn
    · exact htaken
    · exact ih hn hi

theorem seeks_seekFresh {n tries : Nat} (h : freshName (m.seekFresh n tries) ∉ m.wires.names) :
    m.Seeks n (m.seekFresh n tries) := by
  induction tries generalizing n with
  | zero => exact .free h
  | succ tries ih =>
    rw [seekFresh] at h ⊢
    split at h
    · next hcontains =>
      rw [if_pos hcontains]
      exact .taken ((m.wires.contains_iff _).mp hcontains) (ih h)
    · next hcontains =>
      rw [if_neg hcontains]
      exact .free h

/-- The loop ends, at the number of the next fresh wire and nowhere else. -/
theorem seeks_iff {found : Nat} : m.Seeks m.nextFresh found ↔ found = m.freshNumber := by
  have hends : m.Seeks m.nextFresh m.freshNumber := seeks_seekFresh m.freshName_notMem
  constructor
  · intro h
    exact h.unique hends
  · rintro rfl
    exact hends

/-! ### Growth -/

/-- Whether the second module has come of the first, and fresh wires of these names were given on the way. -/
structure Grows (names : List String) (m m' : Module) : Prop where
  wires : ∃ added, m'.wires.names = m.wires.names ++ added ∧ names.Sublist added
  widths : ∀ name width, m.widths name = some width → ∃ width', m'.widths name = some width' ∧ width ≤ width'
  counter : ∀ n < m'.nextFresh, n < m.nextFresh ∨ freshName n ∈ m'.wires.names

variable {names names' : List String}

theorem Grows.names_prefix (h : Grows names m m') : m.wires.names <+: m'.wires.names := by
  obtain ⟨added, hadded, -⟩ := h.wires
  exact ⟨added, hadded.symm⟩

/-- Given names are distinct, and they were not there before. -/
theorem Grows.nodup (h : Grows names m m') : names.Nodup ∧ ∀ name ∈ names, name ∉ m.wires.names := by
  obtain ⟨added, hadded, hsublist⟩ := h.wires
  have hnodup : m'.wires.names.Nodup := m'.wires.nodup_names
  rw [hadded, List.nodup_append] at hnodup
  obtain ⟨-, hnew, hdisjoint⟩ := hnodup
  refine ⟨hsublist.nodup hnew, ?_⟩
  intro name hname hold
  exact hdisjoint name hold name (hsublist.subset hname) rfl

theorem Grows.trans (h : Grows names m m') (h' : Grows names' m' m'') : Grows (names ++ names') m m'' := by
  refine ⟨?_, ?_, ?_⟩
  · obtain ⟨added, hadded, hsublist⟩ := h.wires
    obtain ⟨added', hadded', hsublist'⟩ := h'.wires
    refine ⟨added ++ added', ?_, hsublist.append hsublist'⟩
    rw [hadded', hadded, List.append_assoc]
  · intro name width hwidth
    obtain ⟨width', hwidth', hle⟩ := h.widths name width hwidth
    obtain ⟨width'', hwidth'', hle'⟩ := h'.widths name width' hwidth'
    exact ⟨width'', hwidth'', hle.trans hle'⟩
  · intro n hn
    rcases h'.counter n hn with hn | hmem
    · exact (h.counter n hn).imp_right fun hmem => h'.names_prefix.subset hmem
    · exact .inr hmem

/-- What leaves names, widths and the counter alone. -/
theorem grows_of_same (hnames : m'.wires.names = m.wires.names) (hwidths : m'.widths = m.widths)
    (hcounter : m'.nextFresh = m.nextFresh) : Grows [] m m' := by
  refine ⟨⟨[], by rw [hnames, List.append_nil], .slnil⟩, ?_, ?_⟩
  · intro name width hwidth
    exact ⟨width, by rw [hwidths, hwidth], Nat.le_refl width⟩
  · intro n hn
    exact .inl (hcounter ▸ hn)

theorem Grows.refl (m : Module) : Grows [] m m := grows_of_same rfl rfl rfl

/-! ### Single changes -/

theorem nextFresh_addWire (m : Module) (name : String) (width : Nat) :
    (m.addWire name width).nextFresh = m.nextFresh := by
  unfold addWire
  cases m.wires.get? name <;> rfl

theorem grows_addWire (m : Module) (name : String) (width : Nat) : Grows [] m (m.addWire name width) := by
  refine ⟨?_, ?_, ?_⟩
  · rw [names_addWire]
    split
    · exact ⟨[], (List.append_nil _).symm, .slnil⟩
    · exact ⟨[name], rfl, List.nil_sublist _⟩
  · intro other known hknown
    rw [widths_addWire, widen]
    split
    · next hother =>
      subst hother
      rw [hknown]
      exact ⟨_, rfl, Nat.le_max_left known width⟩
    · exact ⟨known, hknown, Nat.le_refl known⟩
  · intro n hn
    exact .inl (m.nextFresh_addWire name width ▸ hn)

/-- A fresh wire is one that is added under a free name, and the counter passes its number. -/
theorem freshWire_snd (m : Module) (width : Nat) : (m.freshWire width).2 =
    { m.addWire (freshName m.freshNumber) width with nextFresh := m.freshNumber + 1 } := by
  have hfree := Ordered.get?_eq_none_iff.mpr m.freshName_notMem
  rw [freshWire, addWire, hfree]

theorem grows_freshWire (m : Module) (width : Nat) :
    Grows [(m.freshWire width).1] m (m.freshWire width).2 := by
  have hnames : (m.freshWire width).2.wires.names = m.wires.names ++ [freshName m.freshNumber] :=
    Ordered.names_insert_of_notMem m.freshName_notMem _
  refine ⟨⟨_, hnames, List.Sublist.refl _⟩, ?_, ?_⟩
  · rw [freshWire_snd]
    exact (m.grows_addWire (freshName m.freshNumber) width).widths
  · intro n hn
    rw [hnames]
    have hn : n < m.freshNumber + 1 := hn
    rcases Nat.lt_or_ge n m.nextFresh with hlow | hhigh
    · exact .inl hlow
    · right
      rcases Nat.eq_or_lt_of_le (Nat.le_of_lt_succ hn) with rfl | hlt
      · exact List.mem_append_right _ List.mem_cons_self
      · exact List.mem_append_left _ ((seeks_iff.mpr rfl).mem_of_lt hhigh hlt)

theorem grows_freshWires (m : Module) (count : Nat) :
    Grows (m.freshWires count).1 m (m.freshWires count).2 := by
  induction count generalizing m with
  | zero => exact .refl m
  | succ count ih => exact (m.grows_freshWire 1).trans (ih (m.freshWire 1).2)

theorem grows_modifyWire (m : Module) (name : String) {f : Wire → Wire} (hf : ∀ w, (f w).width = w.width) :
    Grows [] m (m.modifyWire name f) :=
  grows_of_same (Ordered.names_modify m.wires name f) (m.widths_modifyWire name hf) rfl

theorem grows_addCell {name : String} {cell : Cell} (h : m.addCell name cell = .ok m') : Grows [] m m' := by
  unfold addCell at h
  split at h
  · cases h
  · cases h
    exact grows_of_same rfl rfl rfl

theorem grows_connect {driven driving : Signal} (h : m.connect driven driving = .ok m') : Grows [] m m' := by
  unfold connect at h
  split at h
  · cases h
    exact grows_of_same rfl rfl rfl
  · cases h

theorem grows_joinBit {base : String} {direction : Direction} {index : Nat}
    (h : Buses.joinBit base direction m index = .ok m') : Grows [] m m' := by
  unfold Buses.joinBit at h
  dsimp only at h
  split at h
  · cases h
    exact .refl m
  · obtain ⟨single, -, h⟩ := bind_eq_ok_iff.mp h
    have hinner := m.grows_modifyWire (Text.Subscript.join base index)
      (f := ({ · with direction := none })) fun _ => rfl
    cases direction with
    | input => exact hinner.trans (grows_connect h)
    | output => exact hinner.trans (grows_connect h)

theorem grows_materializeBus {base : String} {bus : Bus}
    (h : Buses.materializeBus m base bus = .ok m') : Grows [] m m' := by
  have hport : Grows [] m (m.addPort base bus.width bus.direction) :=
    (m.grows_addWire base bus.width).trans (grows_modifyWire _ base fun _ => rfl)
  exact foldlM_invariant (Grows [] m ·) (fun _ _ _ _ hjoin hm => hm.trans (grows_joinBit hjoin)) hport h

theorem grows_materialize {buses : Buses} (h : buses.materialize m = .ok m') : Grows [] m m' :=
  foldlM_invariant (Grows [] m ·) (fun _ _ _ _ hbus hm => hm.trans (grows_materializeBus hbus)) (.refl m) h

/-- The fresh wires of the buses of a cell are those at the indices for which there are no bits. -/
theorem grows_fillers {buses : CellBuses} {calleeWidth? : String → Option Nat}
    {signals : List (String × Signal)} (h : buses.materialize m calleeWidth? = .ok (signals, m')) :
    Grows (CellBuses.fillers buses.entries signals) m m' := by
  obtain ⟨-, fresh, hmodule, hfillers, -⟩ := CellBuses.materializeFrom_eq h
  dsimp only at hmodule hfillers
  rw [hmodule, hfillers]
  exact m.grows_freshWires fresh

/-! ### Runs of changes -/

/-- What can be done to a module. -/
inductive Change where
  | addWire (name : String) (width : Nat)
  | freshWire (width : Nat)
  | editAttributes (name : String) (edit : Ordered Param → Ordered Param)
  | setDirection (name : String) (direction : Option Direction)
  | numberPorts
  | setAttribute (name : String) (value : Param)
  | addCell (name : String) (cell : Cell)
  | connect (driven driving : Signal)
  | addBuses (buses : Buses)
  | addCellBuses (buses : CellBuses) (calleeWidth? : String → Option Nat)

def perform (m : Module) : Change → Except Fault (List String × Module)
  | .addWire name width => .ok ([], m.addWire name width)
  | .freshWire width =>
    let (name, m) := m.freshWire width
    .ok ([name], m)
  | .editAttributes name edit =>
    .ok ([], m.modifyWire name fun w => { w with attributes := edit w.attributes })
  | .setDirection name direction => .ok ([], m.setDirection name direction)
  | .numberPorts => .ok ([], m.numberPorts)
  | .setAttribute name value => .ok ([], m.setAttribute name value)
  | .addCell name cell => do return ([], ← m.addCell name cell)
  | .connect driven driving => do return ([], ← m.connect driven driving)
  | .addBuses buses => do return ([], ← buses.materialize m)
  | .addCellBuses buses calleeWidth? => do
    let (signals, m) ← buses.materialize m calleeWidth?
    return (CellBuses.fillers buses.entries signals, m)

def performAll (m : Module) : List Change → Except Fault (List String × Module)
  | [] => .ok ([], m)
  | change :: changes => do
    let (names, m) ← m.perform change
    let (names', m) ← m.performAll changes
    return (names ++ names', m)

theorem grows_perform {change : Change} (h : m.perform change = .ok (names, m')) : Grows names m m' := by
  cases change with
  | addWire name width =>
    cases h
    exact m.grows_addWire name width
  | freshWire width =>
    cases h
    exact m.grows_freshWire width
  | editAttributes name edit =>
    cases h
    exact m.grows_modifyWire name fun _ => rfl
  | setDirection name direction =>
    cases h
    exact m.grows_modifyWire name fun _ => rfl
  | numberPorts =>
    cases h
    exact grows_of_same m.names_numberPorts m.widths_numberPorts rfl
  | setAttribute name value =>
    cases h
    exact grows_of_same rfl rfl rfl
  | addCell name cell =>
    obtain ⟨added, hadded, h⟩ := bind_eq_ok_iff.mp h
    cases h
    exact grows_addCell hadded
  | connect driven driving =>
    obtain ⟨joined, hjoined, h⟩ := bind_eq_ok_iff.mp h
    cases h
    exact grows_connect hjoined
  | addBuses buses =>
    obtain ⟨made, hmade, h⟩ := bind_eq_ok_iff.mp h
    cases h
    exact grows_materialize hmade
  | addCellBuses buses calleeWidth? =>
    obtain ⟨made, hmade, h⟩ := bind_eq_ok_iff.mp h
    cases h
    exact grows_fillers hmade

theorem grows_performAll {changes : List Change} (h : m.performAll changes = .ok (names, m')) :
    Grows names m m' := by
  induction changes generalizing m names with
  | nil =>
    cases h
    exact .refl _
  | cons change changes ih =>
    obtain ⟨first, hfirst, h⟩ := bind_eq_ok_iff.mp h
    obtain ⟨rest, hrest, h⟩ := bind_eq_ok_iff.mp h
    cases h
    exact (grows_perform hfirst).trans (ih hrest)

/-- In a module that has come of the empty one, the numbers below the next one are taken. -/
theorem Grows.freshNumber_le (h : Grows names {} m) : m.freshNumber ≤ m.wires.size := by
  apply le_size_of_freshName_mem (n := 0)
  intro i hi
  rw [Nat.zero_add]
  rcases Nat.lt_or_ge i m.nextFresh with hlow | hhigh
  · exact (h.counter i hlow).resolve_left (Nat.not_lt_zero i)
  · exact (seeks_iff.mpr rfl).mem_of_lt hhigh hi

/-- In a module that has come of the empty one by any changes, the search for a free number ends, at a number
that is no larger than that of the wires.  The fresh wire is new and comes last, and all other wires stay as they
are.  Names of fresh wires are distinct, and those that are given later are not those of any wire there is now.
No change takes a wire away or makes it narrower. -/
theorem freshWire_of_performAll {changes : List Change} (h : performAll {} changes = .ok (names, m))
    (width : Nat) :
    (∀ found, m.Seeks m.nextFresh found ↔ found = m.freshNumber) ∧
    m.freshNumber ≤ m.wires.size ∧
    (m.freshWire width).1 = freshName m.freshNumber ∧
    (m.freshWire width).1 ∉ m.wires.names ∧
    (m.freshWire width).2.wires.entries = m.wires.entries ++ [((m.freshWire width).1, { width := width })] ∧
    ∀ (more : List Change) (names' : List String) (m' : Module), m.performAll more = .ok (names', m') →
      (names ++ names').Nodup ∧
      (∀ name ∈ names', name ∉ m.wires.names) ∧
      m.wires.names <+: m'.wires.names ∧
      ∀ name width, m.widths name = some width → ∃ width', m'.widths name = some width' ∧ width ≤ width' := by
  have hbefore := grows_performAll h
  refine ⟨fun found => seeks_iff, hbefore.freshNumber_le, rfl, m.freshName_notMem, m.entries_freshWire width, ?_⟩
  intro more names' m' hmore
  have hafter := grows_performAll hmore
  exact ⟨(hbefore.trans hafter).nodup.1, hafter.nodup.2, hafter.names_prefix, hafter.widths⟩

/-- Wires of names of the same form are added before the counter comes there, and a bus of a cell has gaps. -/
def claimedChanges : List Change :=
  [.addWire "$auto$0" 4, .freshWire 2, .addWire "$auto$2" 1,
    .addCellBuses (Ordered.ofList [("q", [(3, .const .one), (1, .const .zero)])]) (fun _ => none),
    .editAttributes "$auto$1" (·.insert "keep" (.ofInt 1)), .freshWire 1]

theorem freshWire_of_performAll_claimed :
    ∃ names m, performAll {} claimedChanges = .ok (names, m) ∧
      names = ["$auto$1", "$auto$3", "$auto$4", "$auto$5"] ∧
      (∀ found, m.Seeks m.nextFresh found ↔ found = 6) ∧ (m.freshWire 8).1 ∉ m.wires.names := by
  have hok := eq_ok_getD (x := performAll {} claimedChanges) (by decide +kernel) ([], {})
  have hnames : ((performAll {} claimedChanges).toOption.getD ([], {})).1 =
      ["$auto$1", "$auto$3", "$auto$4", "$auto$5"] := by
    decide +kernel
  have hnumber : ((performAll {} claimedChanges).toOption.getD ([], {})).2.freshNumber = 6 := by
    decide +kernel
  generalize (performAll {} claimedChanges).toOption.getD ([], {}) = result at hok hnames hnumber
  obtain ⟨hseeks, -, -, hnew, -⟩ := freshWire_of_performAll hok 8
  rw [hnumber] at hseeks
  exact ⟨result.1, result.2, hok, hnames, hseeks, hnew⟩

end CircuitLowering.Module
