import CircuitLowering.Proofs.Design.Fillers
import CircuitLowering.Proofs.Design.ObservedPorts
import Mathlib.Order.Bounds.Basic

/-!
# What counts of observed bits

Bits of buses are observed one after the other, those of one bus with those of others in between.  The buses
come in the order of their first bits.  A bus is one bit wider than its highest index, whatever the order of
its bits, while its direction is that of the bit that came last (`Buses.exists_reflects`).  In the ports of a
cell the last bit at each index counts, so the signal of a bus is told from these bits and from the width of
the wire in the callee (`CellBuses.answersIff_takeAll`, `CellBuses.Reflects.eq_of_lastBit?`).
-/

namespace CircuitLowering

open Text

/-! ### Bases and indices of names -/

/-- The bases of the buses of which names are bits, in the order of their first bits. -/
def basesOf (names : List String) : List String :=
  ((names.filterMap Subscript.split?).map Prod.fst).eraseDups

theorem basesOf_map {α : Type} (calls : List (String × α)) : basesOf (calls.map Prod.fst) =
    ((calls.filterMap (Subscript.split? ·.1)).map Prod.fst).eraseDups := by
  rw [basesOf, List.filterMap_map]
  rfl

theorem basesOf_concat (names : List String) (name : String) : basesOf (names ++ [name]) =
    match Subscript.split? name with
    | none => basesOf names
    | some bit => if bit.1 ∈ basesOf names then basesOf names else basesOf names ++ [bit.1] := by
  unfold basesOf
  rw [List.filterMap_append, List.map_append]
  cases hsplit : Subscript.split? name with
  | none => simp [hsplit]
  | some bit =>
    have hmem := List.mem_eraseDups (l := (names.filterMap Subscript.split?).map Prod.fst) (a := bit.1)
    simp only [List.filterMap_cons, hsplit, List.filterMap_nil, List.map_cons, List.map_nil,
      eraseDups_concat, hmem]

def indicesOf (names : List String) (base : String) : Set Nat :=
  {index | ∃ name ∈ names, Subscript.split? name = some (base, index)}

theorem mem_indicesOf_iff {α : Type} {calls : List (String × α)} {base : String} {index : Nat} :
    index ∈ indicesOf (calls.map Prod.fst) base ↔
      (base, index) ∈ calls.filterMap (Subscript.split? ·.1) := by
  simp [indicesOf, List.mem_filterMap]

theorem indicesOf_perm {names names' : List String} (h : names.Perm names') (base : String) :
    indicesOf names base = indicesOf names' base := by
  ext index
  simp only [indicesOf, Set.mem_ofPred_eq, h.mem_iff]

theorem mem_basesOf_perm {names names' : List String} (h : names.Perm names') {base : String} :
    base ∈ basesOf names ↔ base ∈ basesOf names' := by
  rw [basesOf, basesOf, List.mem_eraseDups, List.mem_eraseDups]
  exact ((h.filterMap _).map _).mem_iff

theorem isGreatest_foldl_max {indices : List Nat} (h : indices ≠ []) :
    IsGreatest {index | index ∈ indices} (indices.foldl max 0) := by
  cases indices with
  | nil => exact absurd rfl h
  | cons first rest =>
    have hmax : (first :: rest).max? = some ((first :: rest).foldl max 0) := by
      rw [List.max?_cons', List.foldl_cons, Nat.zero_max]
    obtain ⟨hmem, hle⟩ := List.max?_eq_some_iff.mp hmax
    exact ⟨hmem, fun index hindex => hle index hindex⟩

/-- Whether a width reaches one bit beyond the highest index that names have for a bus. -/
def Spans (width : Nat) (names : List String) (base : String) : Prop :=
  ∃ last, IsGreatest (indicesOf names base) last ∧ width = last + 1

theorem Spans.unique {width width' : Nat} {names names' : List String} {base : String}
    (h : Spans width names base) (h' : Spans width' names' base)
    (hsame : indicesOf names base = indicesOf names' base) : width = width' := by
  obtain ⟨last, hlast, rfl⟩ := h
  obtain ⟨last', hlast', rfl⟩ := h'
  rw [hsame] at hlast
  rw [hlast.unique hlast']

/-! ### Buses of ports -/

namespace Buses

variable {bs bs' : Buses} {ports ports' : List (String × Direction)}

/-- The direction of the last of the ports that are bits of a bus. -/
def lastDirection? (ports : List (String × Direction)) (base : String) : Option Direction :=
  (ports.filterMap fun port =>
    if (Subscript.split? port.1).map Prod.fst = some base then some port.2 else none).getLast?

theorem lastDirection?_concat (ports : List (String × Direction)) (port : String × Direction) (base : String) :
    lastDirection? (ports ++ [port]) base =
      if (Subscript.split? port.1).map Prod.fst = some base then some port.2
      else lastDirection? ports base := by
  rw [lastDirection?, getLast?_filterMap_concat]
  split <;> rfl

/-- Whether buses say what ports said that were observed one after the other. -/
structure Reflects (bs : Buses) (ports : List (String × Direction)) : Prop where
  names : bs.names = basesOf (ports.map Prod.fst)
  width : ∀ base bus, bs.get? base = some bus → Spans bus.width (ports.map Prod.fst) base
  direction : ∀ base bus, bs.get? base = some bus → lastDirection? ports base = some bus.direction

/-- The highest index of a bus is that of one of its bits. -/
theorem exists_index_busWidth {bits : List (String × Nat)} {base : String} (h : base ∈ bits.map Prod.fst) :
    ∃ index, (base, index) ∈ bits ∧ busWidth bits base = index + 1 := by
  obtain ⟨bit, hbit, hbase⟩ := List.mem_map.mp h
  have hsome : (bits.filter (·.1 = base)).map (·.2 + 1) ≠ [] :=
    List.ne_nil_of_mem (List.mem_map_of_mem (List.mem_filter.mpr ⟨hbit, decide_eq_true hbase⟩))
  obtain ⟨⟨name, index⟩, hmem, hwidth⟩ := List.mem_map.mp (isGreatest_foldl_max hsome).1
  obtain ⟨hlast, hname⟩ := List.mem_filter.mp hmem
  obtain rfl : name = base := of_decide_eq_true hname
  exact ⟨index, hlast, hwidth.symm⟩

theorem spans_busWidth {base : String} (h : base ∈ basesOf (ports.map Prod.fst)) :
    Spans (busWidth (ports.filterMap (Subscript.split? ·.1)) base) (ports.map Prod.fst) base := by
  rw [basesOf_map, List.mem_eraseDups] at h
  obtain ⟨last, hlast, hwidth⟩ := exists_index_busWidth h
  refine ⟨last, ⟨mem_indicesOf_iff.mpr hlast, ?_⟩, hwidth⟩
  intro index hindex
  have hlt := lt_busWidth (mem_indicesOf_iff.mp hindex)
  rw [hwidth] at hlt
  exact Nat.le_of_lt_succ hlt

/-- A port that is a bit of a bus gives it its direction, and any other port changes nothing. -/
theorem direction_observe {port : String × Direction}
    (h : ∀ base bus, bs.get? base = some bus → lastDirection? ports base = some bus.direction)
    (hobserve : bs.observe port.1 port.2 = .ok bs') :
    ∀ base bus, bs'.get? base = some bus → lastDirection? (ports ++ [port]) base = some bus.direction := by
  intro base bus hbus
  rw [lastDirection?_concat]
  unfold observe at hobserve
  cases hsplit : Subscript.split? port.1 with
  | none =>
    rw [hsplit] at hobserve
    cases hobserve
    exact h base bus hbus
  | some bit =>
    rw [hsplit] at hobserve
    obtain ⟨width, -, hmade⟩ := bind_eq_ok_iff.mp hobserve
    cases hmade
    by_cases hbase : bit.1 = base
    · subst hbase
      rw [Ordered.get?_insert_self] at hbus
      cases hbus
      exact if_pos rfl
    · rw [Ordered.get?_insert_of_ne bs (Ne.symm hbase)] at hbus
      have hother : ¬ (some bit).map Prod.fst = some base := fun hsame => hbase (Option.some.inj hsame)
      rw [if_neg hother]
      exact h base bus hbus

theorem direction_ofPorts (h : ofPorts ports = .ok bs) :
    ∀ base bus, bs.get? base = some bus → lastDirection? ports base = some bus.direction := by
  induction ports using List.reverseRecOn generalizing bs with
  | nil =>
    cases h
    intro base bus hbus
    cases hbus
  | append_singleton ports port ih =>
    rw [ofPorts, List.foldlM_append] at h
    obtain ⟨before, hbefore, hlast⟩ := bind_eq_ok_iff.mp h
    rw [List.foldlM_cons] at hlast
    obtain ⟨after, hobserve, hafter⟩ := bind_eq_ok_iff.mp hlast
    cases hafter
    exact direction_observe (ih hbefore) hobserve

/-- Ports whose indices have successors are observed. -/
theorem exists_reflects
    (h : ∀ port ∈ ports, ∀ bit ∈ Subscript.split? port.1, bit.2 + 1 < Subscript.indexLimit) :
    ∃ bs, ofPorts ports = .ok bs ∧ bs.Reflects ports := by
  obtain ⟨bs, hobserved, hbs⟩ := exists_ofPorts h
  have hnames : bs.names = basesOf (ports.map Prod.fst) := by rw [hbs.names, basesOf_map]
  refine ⟨bs, hobserved, hnames, ?_, direction_ofPorts hobserved⟩
  intro base bus hbus
  rw [hbs.width base bus hbus]
  apply spans_busWidth
  rw [← hnames]
  exact List.mem_map_of_mem (Ordered.get?_eq_some_iff.mp hbus)

/-- The order of the ports makes no difference for widths, and neither do their directions. -/
theorem Reflects.width_eq_of_perm (h : bs.Reflects ports) (h' : bs'.Reflects ports')
    (hsame : (ports.map Prod.fst).Perm (ports'.map Prod.fst)) (base : String) :
    (bs.get? base).map (·.width) = (bs'.get? base).map (·.width) := by
  have hmem : base ∈ bs.names ↔ base ∈ bs'.names := by
    rw [h.names, h'.names]
    exact mem_basesOf_perm hsame
  cases hbus : bs.get? base with
  | none =>
    have hnone : bs'.get? base = none := by
      rw [Ordered.get?_eq_none_iff] at hbus ⊢
      rwa [← hmem]
    rw [hnone]
  | some bus =>
    have hname : base ∈ bs'.names := hmem.mp (List.mem_map_of_mem (Ordered.get?_eq_some_iff.mp hbus))
    cases hbus' : bs'.get? base with
    | none => exact absurd hname (Ordered.get?_eq_none_iff.mp hbus')
    | some bus' =>
      have hwidth := (h.width base bus hbus).unique (h'.width base bus' hbus') (indicesOf_perm hsame base)
      rw [Option.map_some, Option.map_some, hwidth]

end Buses

/-! ### Buses of cells -/

namespace CellBuses

variable {bs : CellBuses} {m : Module} {calls calls' : List (String × SignalBit)}
  {calleeWidth? calleeWidth?' : String → Option Nat}

/-- Takes in bits one after the other; those of ports that are no bits of buses are handed back. -/
def takeAll (bs : CellBuses) (calls : List (String × SignalBit)) : CellBuses :=
  calls.foldl (fun bs call => (bs.take? call.1 call.2).getD bs) bs

/-- The last of the bits that were bound at an index of a bus. -/
def lastBit? (calls : List (String × SignalBit)) (base : String) (index : Nat) : Option SignalBit :=
  (calls.filterMap fun call =>
    if Subscript.split? call.1 = some (base, index) then some call.2 else none).getLast?

theorem take?_of_split?_eq_none {port : String} (h : Subscript.split? port = none) (bs : CellBuses)
    (bit : SignalBit) : bs.take? port bit = none := by
  rw [take?, h]
  rfl

theorem takeAll_concat (bs : CellBuses) (calls : List (String × SignalBit)) (call : String × SignalBit) :
    bs.takeAll (calls ++ [call]) = ((bs.takeAll calls).take? call.1 call.2).getD (bs.takeAll calls) := by
  rw [takeAll, List.foldl_append]
  rfl

/-- The bindings of a cell are taken in one after the other, whatever becomes of the cell. -/
theorem foldl_bindScalars_snd (direction : Direction) (c : Cell) (bs : CellBuses)
    (calls : List (String × SignalBit)) :
    (calls.foldl (Cell.bindScalars direction) (c, bs)).2 = bs.takeAll calls := by
  induction calls generalizing c bs with
  | nil => rfl
  | cons call calls ih =>
    rw [List.foldl_cons, takeAll, List.foldl_cons, Cell.bindScalars]
    cases bs.take? call.1 call.2 with
    | none => exact ih _ bs
    | some taken => exact ih c taken

theorem lastBit?_concat (calls : List (String × SignalBit)) (call : String × SignalBit) (base : String)
    (index : Nat) : lastBit? (calls ++ [call]) base index =
      if Subscript.split? call.1 = some (base, index) then some call.2 else lastBit? calls base index := by
  rw [lastBit?, getLast?_filterMap_concat]
  split <;> rfl

theorem isSome_lastBit?_iff {base : String} {index : Nat} :
    (lastBit? calls base index).isSome ↔ index ∈ indicesOf (calls.map Prod.fst) base := by
  rw [lastBit?, List.getLast?_isSome, ne_eq, List.filterMap_eq_nil_iff]
  simp [indicesOf]

/-- Whether buses are those of bits that were taken in one after the other.  What stands behind the first bit at
an index is not seen. -/
structure Keeps (bs : CellBuses) (calls : List (String × SignalBit)) : Prop where
  names : bs.names = basesOf (calls.map Prod.fst)
  bits : ∀ base index, ((bs.get? base).getD []).lookup index = lastBit? calls base index

theorem Keeps.take (h : bs.Keeps calls) (call : String × SignalBit) :
    ((bs.take? call.1 call.2).getD bs).Keeps (calls ++ [call]) := by
  rw [take?]
  constructor
  · rw [List.map_append, List.map_singleton, basesOf_concat, ← h.names]
    cases Subscript.split? call.1 with
    | none => rfl
    | some bit => exact Ordered.names_insert bs bit.1 _
  · intro base index
    rw [lastBit?_concat, ← h.bits]
    cases Subscript.split? call.1 with
    | none => rfl
    | some bit =>
      rw [Option.map_some, Option.getD_some]
      -- the new bit stands in front, so it hides the earlier ones at its index and no others
      by_cases hbase : base = bit.1
      · subst hbase
        rw [Ordered.get?_insert_self, Option.getD_some, List.lookup_cons]
        by_cases hindex : index = bit.2
        · simp [hindex]
        · have hother : ¬ some bit = some (bit.1, index) := by
            intro hsame
            exact hindex (congrArg Prod.snd (Option.some.inj hsame)).symm
          rw [beq_eq_false_iff_ne.mpr hindex, if_neg hother]
      · have hother : ¬ some bit = some (base, index) := by
          intro hsame
          exact hbase (congrArg Prod.fst (Option.some.inj hsame)).symm
        rw [Ordered.get?_insert_of_ne bs hbase, if_neg hother]

theorem keeps_takeAll (calls : List (String × SignalBit)) :
    (takeAll .empty calls).Keeps calls := by
  induction calls using List.reverseRecOn with
  | nil => exact ⟨rfl, fun _ _ => rfl⟩
  | append_singleton calls call ih =>
    rw [takeAll_concat]
    exact ih.take call

/-! ### Signals of buses -/

theorem length_fill (bits : List (Nat × SignalBit)) (m : Module) (index count : Nat) :
    (fill bits m index count).1.length = count := by
  induction count generalizing index m with
  | zero => rfl
  | succ count ih =>
    rw [fill]
    cases bits.lookup index with
    | some bit => exact congrArg (· + 1) (ih m (index + 1))
    | none => exact congrArg (· + 1) (ih (m.freshWire 1).2 (index + 1))

/-- A bit stands in the signal at its index. -/
theorem getElem?_fill {bits : List (Nat × SignalBit)} {index count offset : Nat} {bit : SignalBit}
    (hoffset : offset < count) (h : bits.lookup (index + offset) = some bit) :
    (fill bits m index count).1[offset]? = some bit := by
  induction count generalizing index offset m with
  | zero => cases hoffset
  | succ count ih =>
    rw [fill]
    cases offset with
    | zero =>
      rw [Nat.add_zero] at h
      rw [h]
      rfl
    | succ offset =>
      have hlater : bits.lookup (index + 1 + offset) = some bit := by rwa [Nat.add_right_comm, Nat.add_assoc]
      cases bits.lookup index with
      | some first => exact ih (Nat.lt_of_succ_lt_succ hoffset) hlater
      | none => exact ih (Nat.lt_of_succ_lt_succ hoffset) hlater

/-- Whether signals are those of buses whose bits were bound one after the other, where the wires of the
callee are of the widths `calleeWidth?`. -/
structure Reflects (signals : List (String × Signal)) (calleeWidth? : String → Option Nat)
    (calls : List (String × SignalBit)) : Prop where
  names : signals.map Prod.fst = basesOf (calls.map Prod.fst)
  width : ∀ bus ∈ signals, ∃ observed, Spans observed (calls.map Prod.fst) bus.1 ∧
    bus.2.length = max observed ((calleeWidth? bus.1).getD 0)
  bits : ∀ bus ∈ signals, ∀ index bit, lastBit? calls bus.1 index = some bit → bus.2[index]? = some bit

/-- The highest of the indices of a bus is that of one of its bits. -/
theorem isGreatest_reach {bits : List (Nat × SignalBit)} (h : bits ≠ []) :
    ∃ last, IsGreatest {index | (bits.lookup index).isSome} last ∧ reach bits = last + 1 := by
  have hsome (index : Nat) : (bits.lookup index).isSome ↔ index ∈ bits.map Prod.fst := by
    rw [Option.isSome_iff_ne_none, ne_eq, lookup_eq_none_iff_notMem, not_not]
  simp only [hsome]
  refine ⟨_, isGreatest_foldl_max (mt List.map_eq_nil_iff.mp h), ?_⟩
  rw [reach, if_neg (mt List.isEmpty_iff.mp h)]

/-- What becomes of one bus: its name stays, its width is that of its bits or of the callee's wire, and each
bit stands at its index. -/
structure FilledFrom (calleeWidth? : String → Option Nat) (bus : String × List (Nat × SignalBit))
    (signal : String × Signal) : Prop where
  name : signal.1 = bus.1
  width : signal.2.length = max (reach bus.2) ((calleeWidth? bus.1).getD 0)
  bits : ∀ index < signal.2.length, ∀ bit, bus.2.lookup index = some bit → signal.2[index]? = some bit

theorem filledFrom_of_materializeFrom {buses : List (String × List (Nat × SignalBit))}
    {result : List (String × Signal) × Module} (h : materializeFrom m calleeWidth? buses = .ok result) :
    ∀ signal ∈ result.1, ∃ bus ∈ buses, FilledFrom calleeWidth? bus signal := by
  induction buses generalizing m result with
  | nil =>
    cases h
    intro signal hsignal
    cases hsignal
  | cons bus buses ih =>
    obtain ⟨width, hwidth, h⟩ := bind_eq_ok_iff.mp h
    obtain ⟨-, -, h⟩ := bind_eq_ok_iff.mp h
    obtain ⟨rest, hrest, h⟩ := bind_eq_ok_iff.mp h
    cases h
    have hreach : width = reach bus.2 := by
      have hobserved := answersIff_observedWidth bus.2
      rw [hwidth] at hobserved
      exact hobserved.2
    subst hreach
    intro signal hsignal
    rcases List.mem_cons.mp hsignal with rfl | hsignal
    · refine ⟨bus, List.mem_cons_self, rfl, length_fill _ _ _ _, ?_⟩
      intro index hindex bit hbit
      rw [length_fill] at hindex
      exact getElem?_fill hindex (by rwa [Nat.zero_add])
    · obtain ⟨other, hother, hfilled⟩ := ih hrest signal hsignal
      exact ⟨other, List.mem_cons_of_mem bus hother, hfilled⟩

theorem Keeps.lookup_eq (h : bs.Keeps calls) {bus : String × List (Nat × SignalBit)}
    (hbus : bus ∈ bs.entries) (index : Nat) : bus.2.lookup index = lastBit? calls bus.1 index := by
  have hbits := h.bits bus.1 index
  rwa [Ordered.get?_eq_some_iff.mpr hbus] at hbits

theorem Keeps.spans_reach (h : bs.Keeps calls) {bus : String × List (Nat × SignalBit)}
    (hbus : bus ∈ bs.entries) : Spans (reach bus.2) (calls.map Prod.fst) bus.1 := by
  have hindices : {index | (bus.2.lookup index).isSome} = indicesOf (calls.map Prod.fst) bus.1 := by
    ext index
    rw [Set.mem_ofPred_eq, h.lookup_eq hbus, isSome_lastBit?_iff]
  have hsome : bus.2 ≠ [] := by
    intro hnone
    have hname : bus.1 ∈ bs.names := List.mem_map_of_mem hbus
    rw [h.names, basesOf_map, List.mem_eraseDups] at hname
    obtain ⟨⟨base, index⟩, hbit, hbase⟩ := List.mem_map.mp hname
    rw [← hbase] at hindices
    have hindex := mem_indicesOf_iff.mpr hbit
    rw [← hindices, hnone] at hindex
    cases hindex
  obtain ⟨last, hlast, hreach⟩ := isGreatest_reach hsome
  rw [hindices] at hlast
  exact ⟨last, hlast, hreach⟩

/-- The signals of kept bits reflect them. -/
theorem Keeps.reflects (h : bs.Keeps calls) {result : List (String × Signal) × Module}
    (hmade : bs.materialize m calleeWidth? = .ok result) : Reflects result.1 calleeWidth? calls := by
  have hfilled := filledFrom_of_materializeFrom hmade
  refine ⟨?_, ?_, ?_⟩
  · rw [(materializeFrom_eq hmade).1]
    exact h.names
  · intro signal hsignal
    obtain ⟨bus, hbus, hsignal⟩ := hfilled signal hsignal
    rw [hsignal.name, hsignal.width]
    exact ⟨_, h.spans_reach hbus, rfl⟩
  · intro signal hsignal index bit hbit
    obtain ⟨bus, hbus, hsignal⟩ := hfilled signal hsignal
    rw [hsignal.name] at hbit
    have hindex : index < signal.2.length := by
      obtain ⟨last, hlast, hreach⟩ := h.spans_reach hbus
      have hle : index ≤ last := hlast.2 (isSome_lastBit?_iff.mp (by rw [hbit]; rfl))
      rw [hsignal.width, hreach]
      exact Nat.lt_of_lt_of_le (Nat.lt_succ_of_le hle) (Nat.le_max_left _ _)
    exact hsignal.bits index hindex bit ((h.lookup_eq hbus index).trans hbit)

/-- Signals are made of bits that are taken in just where each bus fits memory. -/
theorem answersIff_takeAll (calls : List (String × SignalBit)) (m : Module)
    (calleeWidth? : String → Option Nat) :
    AnswersIff ((takeAll .empty calls).materialize m calleeWidth?)
      (∀ bit ∈ calls.filterMap (Subscript.split? ·.1),
        Capacity.fits Capacity.signalBitBytes (bit.2 + 1) = true ∧
          Capacity.fits Capacity.signalBitBytes ((calleeWidth? bit.1).getD 0) = true)
      fun result => Reflects result.1 calleeWidth? calls := by
  have hgathers : (takeAll .empty calls).Gathers (calls.filterMap (Subscript.split? ·.1)) := by
    have hfold := gathers_empty.foldl_bindScalars .input { type := "" } calls
    rwa [foldl_bindScalars_snd, List.nil_append] at hfold
  have hanswers : AnswersIff ((takeAll .empty calls).materialize m calleeWidth?) _ fun _ => True :=
    (answersIff_materializeFrom m (takeAll .empty calls).entries).imp hgathers.forall_busFits fun _ h => h
  cases hmade : (takeAll .empty calls).materialize m calleeWidth? with
  | ok result =>
    rw [hmade] at hanswers
    exact ⟨hanswers.1, (keeps_takeAll calls).reflects hmade⟩
  | error fault =>
    rw [hmade] at hanswers
    exact hanswers

/-- The width of a bus and its bits are told from the last bit at each index and from the callee. -/
theorem Reflects.eq_of_lastBit? {signals signals' : List (String × Signal)} {base : String}
    {signal signal' : Signal} (h : Reflects signals calleeWidth? calls)
    (h' : Reflects signals' calleeWidth?' calls') (hmem : (base, signal) ∈ signals)
    (hmem' : (base, signal') ∈ signals') (hcallee : calleeWidth? base = calleeWidth?' base)
    (hlast : ∀ index, lastBit? calls base index = lastBit? calls' base index) :
    signal.length = signal'.length ∧
      ∀ index ∈ indicesOf (calls.map Prod.fst) base, signal[index]? = signal'[index]? := by
  have hindices : indicesOf (calls.map Prod.fst) base = indicesOf (calls'.map Prod.fst) base := by
    ext index
    rw [← isSome_lastBit?_iff, hlast, isSome_lastBit?_iff]
  constructor
  · obtain ⟨observed, hspans, hwidth⟩ := h.width _ hmem
    obtain ⟨observed', hspans', hwidth'⟩ := h'.width _ hmem'
    dsimp only at hwidth hwidth'
    rw [hwidth, hwidth', hspans.unique hspans' hindices, hcallee]
  · intro index hindex
    obtain ⟨bit, hbit⟩ := Option.isSome_iff_exists.mp (isSome_lastBit?_iff.mpr hindex)
    rw [h.bits _ hmem index bit hbit, h'.bits _ hmem' index bit ((hlast index).symm.trans hbit)]

/-- Bits of different places may come in either order. -/
theorem lastBit?_swap {call call' : String × SignalBit}
    (h : Subscript.split? call.1 ≠ Subscript.split? call'.1) (base : String) (index : Nat) :
    lastBit? (calls ++ call :: call' :: calls') base index =
      lastBit? (calls ++ call' :: call :: calls') base index := by
  unfold lastBit?
  congr 1
  simp only [List.filterMap_append, List.filterMap_cons]
  by_cases hfirst : Subscript.split? call.1 = some (base, index)
  · have hsecond : ¬ Subscript.split? call'.1 = some (base, index) := fun hsame => h (hfirst.trans hsame.symm)
    simp only [if_neg hsecond]
  · simp only [if_neg hfirst]

end CellBuses

/-! ### Observations -/

/-- Observed ports make buses in the order of their first bits, each as wide as its highest index asks
whatever the order, and with the direction of the bit that came last.  The signals of a cell's buses have the
last bit at each index, and their widths and bits depend on nothing else than these and the callee.  Names that
are not those of bits change nothing. -/
theorem buses_of_observations {ports : List (String × Direction)}
    (hports : ∀ port ∈ ports, ∀ bit ∈ Subscript.split? port.1, bit.2 + 1 < Subscript.indexLimit)
    (calls : List (String × SignalBit)) (m : Module) (calleeWidth? : String → Option Nat) :
    (∃ bs, Buses.ofPorts ports = .ok bs ∧ bs.Reflects ports ∧
      ∀ ports' : List (String × Direction), (ports.map Prod.fst).Perm (ports'.map Prod.fst) →
        ∃ bs', Buses.ofPorts ports' = .ok bs' ∧
          ∀ base, (bs.get? base).map (·.width) = (bs'.get? base).map (·.width)) ∧
    AnswersIff ((CellBuses.takeAll .empty calls).materialize m calleeWidth?)
      (∀ bit ∈ calls.filterMap (Subscript.split? ·.1),
        Capacity.fits Capacity.signalBitBytes (bit.2 + 1) = true ∧
          Capacity.fits Capacity.signalBitBytes ((calleeWidth? bit.1).getD 0) = true)
      (fun result => CellBuses.Reflects result.1 calleeWidth? calls ∧
        ∀ (calls' : List (String × SignalBit)) (m' : Module) (calleeWidth?' : String → Option Nat) result',
          (CellBuses.takeAll .empty calls').materialize m' calleeWidth?' = .ok result' →
          ∀ base signal signal', (base, signal) ∈ result.1 → (base, signal') ∈ result'.1 →
            calleeWidth? base = calleeWidth?' base →
            (∀ index, CellBuses.lastBit? calls base index = CellBuses.lastBit? calls' base index) →
            signal.length = signal'.length ∧
              ∀ index ∈ indicesOf (calls.map Prod.fst) base, signal[index]? = signal'[index]?) ∧
    (∀ name, Subscript.split? name = none →
      (∀ (bs : Buses) direction, bs.observe name direction = .ok bs) ∧
        ∀ (bs : CellBuses) bit, bs.take? name bit = none) ∧
    ∀ (before after : List (String × SignalBit)) (call call' : String × SignalBit),
      Subscript.split? call.1 ≠ Subscript.split? call'.1 → ∀ base index,
        CellBuses.lastBit? (before ++ call :: call' :: after) base index =
          CellBuses.lastBit? (before ++ call' :: call :: after) base index := by
  refine ⟨?_, ?_, ?_, ?_⟩
  · obtain ⟨bs, hobserved, hbs⟩ := Buses.exists_reflects hports
    refine ⟨bs, hobserved, hbs, ?_⟩
    intro ports' hsame
    have hports' : ∀ port ∈ ports', ∀ bit ∈ Subscript.split? port.1, bit.2 + 1 < Subscript.indexLimit := by
      intro port' hport'
      obtain ⟨port, hport, hname⟩ := List.mem_map.mp (hsame.mem_iff.mpr (List.mem_map_of_mem hport'))
      rw [← hname]
      exact hports port hport
    obtain ⟨bs', hobserved', hbs'⟩ := Buses.exists_reflects hports'
    exact ⟨bs', hobserved', hbs.width_eq_of_perm hbs' hsame⟩
  · apply (CellBuses.answersIff_takeAll calls m calleeWidth?).imp Iff.rfl
    intro result hresult
    refine ⟨hresult, ?_⟩
    intro calls' m' calleeWidth?' result' hmade base signal signal' hmem hmem' hcallee hlast
    exact hresult.eq_of_lastBit? ((CellBuses.keeps_takeAll calls').reflects hmade) hmem hmem' hcallee hlast
  · intro name hname
    exact ⟨fun _ _ => Buses.observe_of_split?_eq_none hname, CellBuses.take?_of_split?_eq_none hname⟩
  · intro before after call call' hne base index
    exact CellBuses.lastBit?_swap hne base index

/-- Two buses, bit by bit and with gaps, one index of a cell bound twice, and a wider callee. -/
theorem buses_of_observations_interleaved :
    (∃ bs, Buses.ofPorts
        [("b[1]", .input), ("a[2]", .input), ("clk", .input), ("b[0]", .output), ("a[0]", .output)] = .ok bs ∧
      bs.names = ["b", "a"] ∧
      ∃ bs', Buses.ofPorts
          [("a[0]", .input), ("b[0]", .input), ("a[2]", .input), ("b[1]", .output), ("clk", .input)] = .ok bs' ∧
        (bs.get? "a").map (·.width) = (bs'.get? "a").map (·.width)) ∧
    ∃ result, (CellBuses.takeAll .empty
        [("q[2]", .const .one), ("q[0]", .wire "x" 0), ("q[2]", .wire "y" 0)]).materialize {}
        (fun _ => some 4) = .ok result ∧
      ∀ signal ∈ result.1, signal.2[2]? = some (.wire "y" 0) := by
  have hports : ∀ port ∈ [("b[1]", Direction.input), ("a[2]", .input), ("clk", .input), ("b[0]", .output),
      ("a[0]", .output)], ∀ bit ∈ Subscript.split? port.1, bit.2 + 1 < Subscript.indexLimit := by
    decide
  obtain ⟨⟨bs, hobserved, hbs, hperm⟩, hcell, -, -⟩ := buses_of_observations hports
    [("q[2]", .const .one), ("q[0]", .wire "x" 0), ("q[2]", .wire "y" 0)] {} (fun _ => some 4)
  refine ⟨⟨bs, hobserved, ?_, ?_⟩, ?_⟩
  · rw [hbs.names]
    decide
  · obtain ⟨bs', hobserved', hwidth⟩ := hperm
      [("a[0]", .input), ("b[0]", .input), ("a[2]", .input), ("b[1]", .output), ("clk", .input)] (by decide)
    exact ⟨bs', hobserved', hwidth "a"⟩
  · obtain ⟨result, hmade, hresult, -⟩ := hcell.exists_ok (by decide)
    refine ⟨result, hmade, ?_⟩
    intro signal hsignal
    have hname : signal.1 = "q" := by
      have hmem := List.mem_map_of_mem (f := Prod.fst) hsignal
      rw [hresult.names] at hmem
      exact List.mem_singleton.mp hmem
    apply hresult.bits signal hsignal
    rw [hname]
    decide

end CircuitLowering
