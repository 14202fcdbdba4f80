import CircuitLowering.Design.Blackbox
import CircuitLowering.Proofs.Design.Ports
import CircuitLowering.Proofs.Queries
import CircuitLowering.Proofs.Text.Subscript

/-!
# Which models can be declared by a module

The ports of a model are put together from the names of their bits, whatever these names are, and so a
port may be read as a bit of a bus that it was not meant for.  A bus is added with as many bits as its
highest index asks for, and each bit is joined to the wire of its name if there is one.  This goes wrong
where that wire is not of one bit: it is then a bus itself, which has come before.  It goes wrong, too,
where an index has no successor in 64 bits.  In all other cases there is a module
(`Model.answersIff_blackbox`), whatever is not joined.
-/

namespace CircuitLowering

open Text

/-! ### Queries that answer under a condition -/

/-- Whether a fault is one of widths: two that differ, or one that is too large. -/
def Fault.IsWidth (f : Fault) : Prop := f = .widthMismatch ∨ f = .overflow

/-- Whether a query answers just where `C` holds, with an answer in `done`, and comes to a fault of
widths elsewhere. -/
def AnswersIff {α : Type} (x : Except Fault α) (C : Prop) (done : α → Prop) : Prop :=
  match x with
  | .ok a => C ∧ done a
  | .error f => ¬ C ∧ f.IsWidth

section AnswersIff

variable {α β : Type} {x : Except Fault α} {C D : Prop} {done : α → Prop} {done' : β → Prop}

theorem answersIff_ok {a : α} (hC : C) (ha : done a) : AnswersIff (.ok a) C done := ⟨hC, ha⟩

theorem answersIff_overflow (hC : ¬ C) : AnswersIff (.error .overflow) C done := ⟨hC, .inr rfl⟩

theorem AnswersIff.imp {done' : α → Prop} (h : AnswersIff x C done) (hiff : C ↔ D)
    (hdone : ∀ a, done a → done' a) : AnswersIff x D done' := by
  cases x with
  | ok a => exact ⟨hiff.mp h.1, hdone a h.2⟩
  | error f => exact ⟨mt hiff.mpr h.1, h.2⟩

theorem AnswersIff.exists_ok (h : AnswersIff x C done) (hC : C) : ∃ a, x = .ok a ∧ done a := by
  cases x with
  | ok a => exact ⟨a, rfl, h.2⟩
  | error f => exact absurd hC h.1

theorem AnswersIff.bind {f : α → Except Fault β} (hx : AnswersIff x C done)
    (hf : ∀ a, done a → AnswersIff (f a) D done') : AnswersIff (x >>= f) (C ∧ D) done' := by
  cases x with
  | ok a => exact (hf a hx.2).imp (by simp [hx.1]) fun _ hb => hb
  | error fault => exact ⟨fun h => hx.1 h.1, hx.2⟩

/-- A run over a list answers where each step does, if what the steps keep is all that counts. -/
theorem AnswersIff.foldlM {step : β → α → Except Fault β} {C : α → Prop} {P : β → Prop} {as : List α}
    (hstep : ∀ b a, P b → AnswersIff (step b a) (C a) P) {b : β} (hb : P b) :
    AnswersIff (as.foldlM step b) (∀ a ∈ as, C a) P := by
  induction as generalizing b with
  | nil => exact answersIff_ok (by simp) hb
  | cons a as ih =>
    rw [List.foldlM_cons]
    apply ((hstep b a hb).bind fun b' hb' => ih hb').imp _ fun _ h => h
    simp

end AnswersIff

/-! ### Widths of wires -/

def IsNarrow (widths : String → Option Nat) (name : String) : Prop :=
  ∀ width, widths name = some width → width = 1

def widen (widths : String → Option Nat) (name : String) (width : Nat) : String → Option Nat :=
  fun other => if other = name then some (max ((widths name).getD 0) width) else widths other

section Widen

variable {widths : String → Option Nat} {width : Nat}

theorem pos_widen (hpos : ∀ name width, widths name = some width → 0 < width) (hwidth : 0 < width)
    (name : String) :
    ∀ other known, widen widths name width other = some known → 0 < known := by
  intro other known h
  rw [widen] at h
  split at h
  · cases h
    omega
  · exact hpos other known h

theorem isNarrow_widen_of_ne {name other : String} (h : other ≠ name) :
    IsNarrow (widen widths name width) other ↔ IsNarrow widths other := by
  unfold IsNarrow widen
  rw [if_neg h]

/-- After a wire was made wider, a name is that of one bit if it was, and unless it is the name of this
wire and there is more than one bit now. -/
theorem isNarrow_widen (hpos : ∀ name width, widths name = some width → 0 < width) (hwidth : 0 < width)
    (name other : String) :
    IsNarrow (widen widths name width) other ↔ IsNarrow widths other ∧ (other = name → width = 1) := by
  unfold IsNarrow widen
  by_cases hother : other = name
  · subst hother
    cases h : widths other with
    | none => simp
    | some old =>
      have hold := hpos other old h
      simp
      omega
  · simp [hother]

end Widen

namespace Module

variable {m : Module} {name : String}

def widths (m : Module) (name : String) : Option Nat := (m.wires.get? name).map (·.width)

theorem isNarrow_widths_iff :
    IsNarrow m.widths name ↔ ∀ w, m.wires.get? name = some w → w.width = 1 := by
  simp [IsNarrow, widths]

theorem widths_modifyWire (m : Module) (other : String) {f : Wire → Wire} (hf : ∀ w, (f w).width = w.width) :
    (m.modifyWire other f).widths = m.widths := by
  funext name
  unfold widths modifyWire
  by_cases h : name = other
  · subst h
    rw [Ordered.get?_modify_self, Option.map_map]
    congr 1
    funext w
    exact hf w
  · rw [Ordered.get?_modify_of_ne m.wires h]

theorem widths_setDirection (m : Module) (other : String) (direction : Option Direction) :
    (m.setDirection other direction).widths = m.widths :=
  m.widths_modifyWire other fun _ => rfl

theorem widths_addWire (m : Module) (name : String) (width : Nat) :
    (m.addWire name width).widths = widen m.widths name width := by
  funext other
  have hinsert (w : Wire) : ((m.wires.insert name w).get? other).map (·.width) =
      if other = name then some w.width else m.widths other := by
    by_cases h : other = name
    · subst h
      rw [Ordered.get?_insert_self, if_pos rfl]
      rfl
    · rw [Ordered.get?_insert_of_ne m.wires h, if_neg h]
      rfl
  unfold addWire
  cases h : m.wires.get? name with
  | none => simpa [widen, widths, h] using hinsert { width }
  | some w => simpa [widen, widths, h] using hinsert { w with width := max w.width width }

theorem widths_addPort (m : Module) (name : String) (width : Nat) (direction : Direction) :
    (m.addPort name width direction).widths = widen m.widths name width := by
  rw [addPort, widths_setDirection, widths_addWire]

/-- Ports of one bit leave all wires of one bit. -/
theorem isNarrow_foldl_addPort (hm : ∀ name, IsNarrow m.widths name)
    (ports : List (String × Direction)) : ∀ name,
      IsNarrow (ports.foldl (fun m (name, direction) => m.addPort name 1 direction) m).widths name := by
  induction ports generalizing m with
  | nil => exact hm
  | cons port ports ih =>
    refine ih fun name width h => ?_
    change (m.addPort port.1 1 port.2).widths name = some width at h
    rw [widths_addPort, widen] at h
    split at h
    · cases hold : m.widths port.1 with
      | none => simpa [hold, eq_comm] using h
      | some old => simpa [hold, hm port.1 old hold, eq_comm] using h
    · exact hm name width h

theorem answersIff_connect (m : Module) (driven driving : Signal) :
    AnswersIff (m.connect driven driving) (driven.length = driving.length)
      fun m' => m'.widths = m.widths := by
  unfold connect
  split
  · next h => exact answersIff_ok h rfl
  · next h => exact ⟨h, .inl rfl⟩

theorem widths_numberPorts (m : Module) : m.numberPorts.widths = m.widths := by
  let place (next : Nat) (w : Wire) : Wire × Nat :=
    if w.isPort then ({ w with portId := next }, next + 1) else ({ w with portId := 0 }, next)
  have hplace (next : Nat) (w : Wire) : (place next w).1.width = w.width := by
    dsimp only [place]
    split <;> rfl
  funext name
  have hscan (next : Nat) (entries : List (String × Wire)) :
      ((Ordered.scan place next entries).lookup name).map (·.width) =
        (entries.lookup name).map (·.width) := by
    induction entries generalizing next with
    | nil => rfl
    | cons entry entries ih =>
      rw [Ordered.scan, List.lookup_cons, List.lookup_cons]
      cases name == entry.1 with
      | true => simp [hplace]
      | false => exact ih _
  exact hscan 1 m.wires.entries

end Module

/-! ### Buses that are added -/

namespace Buses

variable {m : Module} {base : String}

theorem answersIff_ofWireChecked (name : String) (width : Nat) :
    AnswersIff (Signal.ofWireChecked name width)
      (Capacity.fits Capacity.signalBitBytes width = true) fun s => s.length = width := by
  unfold Signal.ofWireChecked
  split
  · next h => exact answersIff_ok h (by simp [Signal.ofWire])
  · next h => exact answersIff_overflow h

/-- A bit is joined where the wire of its name, if there is one, is of one bit. -/
theorem answersIff_joinBit (m : Module) (base : String) (direction : Direction) (index : Nat) :
    AnswersIff (joinBit base direction m index) (IsNarrow m.widths (Subscript.join base index))
      fun m' => m'.widths = m.widths := by
  simp only [joinBit]
  cases hw : m.wires.get? (Subscript.join base index) with
  | none => exact answersIff_ok (by simp [IsNarrow, Module.widths, hw]) rfl
  | some w =>
    have hnarrow : IsNarrow m.widths (Subscript.join base index) ↔ w.width = 1 := by
      simp [IsNarrow, Module.widths, hw]
    have hone : w.width = 1 → Capacity.fits Capacity.signalBitBytes w.width = true := by
      intro h
      rw [h]
      rfl
    have hwidths := m.widths_setDirection (Subscript.join base index) none
    refine ((answersIff_ofWireChecked _ w.width).bind (D := w.width = 1) fun single hsingle => ?_).imp
      ?_ fun m' (h : m'.widths = m.widths) => h
    · cases direction with
      | input =>
        refine (Module.answersIff_connect _ _ _).imp ?_ fun _ h => h.trans hwidths
        simp [hsingle]
      | output =>
        refine (Module.answersIff_connect _ _ _).imp ?_ fun _ h => h.trans hwidths
        simp [hsingle, eq_comm]
    · rw [hnarrow]
      exact ⟨fun h => h.2, fun h => ⟨hone h, h⟩⟩

theorem answersIff_materializeBus (m : Module) (base : String) (bus : Bus) :
    AnswersIff (materializeBus m base bus)
      (∀ index < bus.width, IsNarrow m.widths (Subscript.join base index))
      fun m' => m'.widths = widen m.widths base bus.width := by
  rw [materializeBus, ← Module.widths_addPort m base bus.width bus.direction]
  generalize hadded : m.addPort base bus.width bus.direction = added
  have hjoined : AnswersIff ((List.range bus.width).foldlM (joinBit base bus.direction) added)
      (∀ index ∈ List.range bus.width, IsNarrow added.widths (Subscript.join base index))
      fun m' => m'.widths = added.widths := by
    refine AnswersIff.foldlM (fun b index hb => ?_) rfl
    refine (answersIff_joinBit b base bus.direction index).imp ?_ fun _ h => h.trans hb
    rw [hb]
  refine hjoined.imp ?_ fun _ h => h
  simp only [List.mem_range, ← hadded, Module.widths_addPort]
  refine forall_congr' fun index => imp_congr_right fun _ => ?_
  rw [isNarrow_widen_of_ne (Subscript.join_ne_base base index)]

/-- Whether a bus that comes before another is of one bit if it has the name of one of its bits. -/
def ComesBefore (earlier later : String × Bus) : Prop :=
  ∀ index < later.2.width, earlier.1 = Subscript.join later.1 index → earlier.2.width = 1

/-- Buses are added one after the other where no bus of several bits comes before one of which it has
the name of a bit. -/
theorem answersIff_foldlM_materializeBus {buses : List (String × Bus)}
    (hbuses : ∀ bus ∈ buses, 0 < bus.2.width)
    (hpos : ∀ name width, m.widths name = some width → 0 < width) :
    AnswersIff (buses.foldlM (fun m (base, bus) => materializeBus m base bus) m)
      ((∀ bus ∈ buses, ∀ index < bus.2.width, IsNarrow m.widths (Subscript.join bus.1 index)) ∧
        buses.Pairwise ComesBefore)
      fun m' => m'.widths = buses.foldl (fun widths bus => widen widths bus.1 bus.2.width) m.widths := by
  induction buses generalizing m with
  | nil => exact answersIff_ok (by simp) rfl
  | cons bus buses ih =>
    obtain ⟨hbus, hbuses⟩ := List.forall_mem_cons.mp hbuses
    have hrest (m' : Module) (hm' : m'.widths = widen m.widths bus.1 bus.2.width) :=
      ih (m := m') hbuses (hm' ▸ pos_widen hpos hbus bus.1)
    refine ((answersIff_materializeBus m bus.1 bus.2).bind fun m' hm' => hm' ▸ hrest m' hm').imp ?_
      fun _ h => h
    simp only [isNarrow_widen hpos hbus, List.forall_mem_cons, List.pairwise_cons, ComesBefore]
    constructor
    · rintro ⟨hfirst, hothers, hpairwise⟩
      exact ⟨⟨hfirst, fun other hother index hindex => (hothers other hother index hindex).1⟩,
        fun other hother index hindex hname => (hothers other hother index hindex).2 hname.symm,
        hpairwise⟩
    · rintro ⟨⟨hfirst, hnarrow⟩, hbefore, hpairwise⟩
      exact ⟨hfirst, fun other hother index hindex => ⟨hnarrow other hother index hindex,
        fun hname => hbefore other hother index hindex hname.symm⟩, hpairwise⟩

/-- What a wire has become when buses of distinct names have been added. -/
theorem foldl_widen {buses : List (String × Bus)} (hnodup : (buses.map Prod.fst).Nodup)
    (widths : String → Option Nat) (name : String) :
    ((buses.foldl (fun widths bus => widen widths bus.1 bus.2.width) widths) name).getD 0 =
      max ((widths name).getD 0) (((buses.lookup name).map (·.width)).getD 0) := by
  induction buses generalizing widths with
  | nil => simp
  | cons bus buses ih =>
    rw [List.map_cons, List.nodup_cons] at hnodup
    rw [List.foldl_cons, ih hnodup.2, List.lookup_cons, widen]
    by_cases hname : name = bus.1
    · have hnone : buses.lookup name = none := by
        rw [lookup_eq_none_iff_notMem, hname]
        exact hnodup.1
      rw [hnone]
      simp [hname]
    · have hne : (name == bus.1) = false := beq_eq_false_iff_ne.mpr hname
      simp [hname, hne]

/-! ### Buses that are observed -/

/-- One more than the highest index that a list of bits has for a base; zero if it has none. -/
def busWidth (bits : List (String × Nat)) (base : String) : Nat :=
  ((bits.filter (·.1 = base)).map (·.2 + 1)).foldl max 0

theorem busWidth_concat (bits : List (String × Nat)) (bit : String × Nat) (base : String) :
    busWidth (bits ++ [bit]) base =
      if bit.1 = base then max (busWidth bits base) (bit.2 + 1) else busWidth bits base := by
  by_cases h : bit.1 = base
  · simp [busWidth, h]
  · simp [busWidth, h]

theorem busWidth_eq_zero {bits : List (String × Nat)} {base : String}
    (h : base ∉ bits.map Prod.fst) : busWidth bits base = 0 := by
  have hnone : bits.filter (·.1 = base) = [] := by
    rw [List.filter_eq_nil_iff]
    intro bit hbit
    rw [decide_eq_true_eq]
    rintro rfl
    exact h (List.mem_map_of_mem hbit)
  rw [busWidth, hnone]
  rfl

theorem lt_busWidth {bits : List (String × Nat)} {bit : String × Nat} (h : bit ∈ bits) :
    bit.2 < busWidth bits bit.1 := by
  induction bits using List.reverseRecOn with
  | nil => cases h
  | append_singleton bits last ih =>
    rw [busWidth_concat]
    rcases List.mem_append.mp h with h | h
    · have hlow := ih h
      split <;> omega
    · rw [List.mem_singleton.mp h, if_pos rfl]
      omega

theorem busWidth_le {bits : List (String × Nat)} {limit : Nat} (h : ∀ bit ∈ bits, bit.2 < limit)
    (base : String) : busWidth bits base ≤ limit := by
  induction bits using List.reverseRecOn with
  | nil => exact Nat.zero_le limit
  | append_singleton bits last ih =>
    rw [List.forall_mem_append, List.forall_mem_singleton] at h
    have hbits := ih h.1
    rw [busWidth_concat]
    split
    · exact Nat.max_le.mpr ⟨hbits, h.2⟩
    · exact hbits

/-- Whether buses are those of a list of bits: each with its width, in the order of their first bits. -/
structure Collects (bs : Buses) (bits : List (String × Nat)) : Prop where
  names : bs.names = (bits.map Prod.fst).eraseDups
  width : ∀ base bus, bs.get? base = some bus → bus.width = busWidth bits base

section Observe

variable {bs : Buses} {bits : List (String × Nat)}

theorem collects_empty : Collects .empty [] := ⟨rfl, fun _ _ h => nomatch h⟩

theorem Collects.exists_bit (h : bs.Collects bits) {bus : String × Bus} (hbus : bus ∈ bs.entries) :
    ∃ index, (bus.1, index) ∈ bits := by
  have hname : bus.1 ∈ bits.map Prod.fst := by
    rw [← List.mem_eraseDups, ← h.names]
    exact List.mem_map_of_mem hbus
  obtain ⟨⟨base, index⟩, hbit, rfl⟩ := List.mem_map.mp hname
  exact ⟨index, hbit⟩

theorem Collects.width_eq (h : bs.Collects bits) {bus : String × Bus} (hbus : bus ∈ bs.entries) :
    bus.2.width = busWidth bits bus.1 :=
  h.width bus.1 bus.2 (Ordered.get?_eq_some_iff.mpr hbus)

theorem Collects.exists_bus (h : bs.Collects bits) {base : String} {index : Nat}
    (hbit : (base, index) ∈ bits) : ∃ bus, (base, bus) ∈ bs.entries ∧ index < bus.width := by
  have hname : base ∈ bs.names := by
    rw [h.names, List.mem_eraseDups]
    exact List.mem_map_of_mem hbit
  obtain ⟨⟨name, bus⟩, hbus, rfl⟩ := List.mem_map.mp hname
  refine ⟨bus, hbus, ?_⟩
  rw [h.width_eq hbus]
  exact lt_busWidth hbit

theorem Collects.known (h : bs.Collects bits) (base : String) :
    ((bs.get? base).map (·.width)).getD 0 = busWidth bits base := by
  cases hbus : bs.get? base with
  | none =>
    rw [Ordered.get?_eq_none_iff, h.names, List.mem_eraseDups] at hbus
    exact (busWidth_eq_zero hbus).symm
  | some bus => exact h.width base bus hbus

theorem Collects.insert (h : bs.Collects bits) (base : String) (index : Nat) (direction : Direction) :
    Collects (bs.insert base { width := max (busWidth bits base) (index + 1), direction })
      (bits ++ [(base, index)]) := by
  constructor
  · rw [Ordered.names_insert, h.names, List.map_append, List.map_singleton, eraseDups_concat]
    simp only [List.mem_eraseDups]
  · intro other bus hbus
    rw [busWidth_concat]
    by_cases hother : base = other
    · subst hother
      rw [Ordered.get?_insert_self] at hbus
      cases hbus
      rw [if_pos rfl]
    · rw [Ordered.get?_insert_of_ne bs (Ne.symm hother)] at hbus
      rw [if_neg hother]
      exact h.width other bus hbus

/-- A name is taken in unless it is that of a bit with the last index. -/
theorem answersIff_observe (h : bs.Collects bits) (name : String) (direction : Direction) :
    AnswersIff (bs.observe name direction)
      (∀ bit ∈ (Subscript.split? name).toList, bit.2 + 1 < Subscript.indexLimit)
      fun bs' => bs'.Collects (bits ++ (Subscript.split? name).toList) := by
  unfold observe
  cases Subscript.split? name with
  | none => exact answersIff_ok (by simp) (by simpa using h)
  | some bit =>
    obtain ⟨base, index⟩ := bit
    dsimp only
    rw [accumulate, indexSuccessor, h.known]
    split
    · next hindex => exact answersIff_ok (by simpa using hindex) (h.insert base index direction)
    · next hindex => exact answersIff_overflow (by simpa using hindex)

theorem answersIff_foldlM_observe (h : bs.Collects bits) (names : List (String × Direction)) :
    AnswersIff (names.foldlM (fun bs (name, direction) => observe bs name direction) bs)
      (∀ bit ∈ names.filterMap (Subscript.split? ·.1), bit.2 + 1 < Subscript.indexLimit)
      fun bs' => bs'.Collects (bits ++ names.filterMap (Subscript.split? ·.1)) := by
  induction names generalizing bs bits with
  | nil => exact answersIff_ok (by simp) (by simpa using h)
  | cons name names ih =>
    have hsplit : (name :: names).filterMap (Subscript.split? ·.1) =
        (Subscript.split? name.1).toList ++ names.filterMap (Subscript.split? ·.1) := by
      rw [List.filterMap_cons]
      cases Subscript.split? name.1 <;> rfl
    rw [List.foldlM_cons, hsplit]
    refine ((answersIff_observe h name.1 name.2).bind fun bs' h' => ih h').imp ?_ ?_
    · rw [List.forall_mem_append]
    · intro bs' h'
      rwa [List.append_assoc] at h'

end Observe

end Buses

/-! ### Modules of models -/

namespace Model

open Buses

variable {m : Model}

/-- The names of bits that are read as bits of buses, by base and index. -/
def busBits (m : Model) : List (String × Nat) := m.bitPorts.filterMap (Subscript.split? ·.1)

/-- Whether the buses of a model can be put together from the names of its bits. -/
structure Regroups (m : Model) : Prop where
  fits : m.portsFit = true
  /-- No bit has the last index. -/
  indices : ∀ bit ∈ m.busBits, bit.2 + 1 < Subscript.indexLimit
  /-- A bus whose first bit comes before that of another is of one bit if it has the name of one of the
  bits of the other. -/
  order : (m.busBits.map Prod.fst).eraseDups.Pairwise fun earlier later =>
    ∀ index < busWidth m.busBits later, earlier = Subscript.join later index →
      busWidth m.busBits earlier = 1

theorem widths_scalarModule (m : Model) (name : String) : IsNarrow m.scalarModule.widths name := by
  refine Module.isNarrow_foldl_addPort ?_ m.bitPorts name
  intro name width h
  cases h

theorem answersIff_buses (m : Model) :
    AnswersIff m.buses
      (m.portsFit = true ∧ ∀ bit ∈ m.busBits, bit.2 + 1 < Subscript.indexLimit)
      fun bs => bs.Collects m.busBits := by
  unfold buses
  split
  · next hfits =>
    apply (answersIff_foldlM_observe collects_empty m.bitPorts).imp _ fun _ h => h
    rw [hfits, busBits]
    simp
  · next hfits => exact answersIff_overflow (by simp [hfits])

/-- The order of buses is that of their names. -/
theorem pairwise_comesBefore_iff {bs : Buses} {bits : List (String × Nat)} (h : bs.Collects bits) :
    bs.entries.Pairwise ComesBefore ↔
      (bits.map Prod.fst).eraseDups.Pairwise fun earlier later =>
        ∀ index < busWidth bits later, earlier = Subscript.join later index →
          busWidth bits earlier = 1 := by
  rw [← h.names, Ordered.names, List.pairwise_map]
  apply List.Pairwise.iff_of_mem
  intro earlier later hearlier hlater
  rw [ComesBefore, h.width_eq hearlier, h.width_eq hlater]

/-- A model is declared by a module just where its buses can be put together.  A wire of the module is as
wide as the bus of its name, or of one bit if there is no such bus. -/
theorem answersIff_blackbox (m : Model) :
    AnswersIff m.blackbox m.Regroups fun module =>
      ∀ name, max 1 ((module.widths name).getD 0) = max 1 (busWidth m.busBits name) := by
  have hscalar := m.widths_scalarModule
  have hmodule (bs : Buses) (hbs : bs.Collects m.busBits) :
      AnswersIff (bs.materialize m.scalarModule)
        ((m.busBits.map Prod.fst).eraseDups.Pairwise fun earlier later =>
          ∀ index < busWidth m.busBits later, earlier = Subscript.join later index →
            busWidth m.busBits earlier = 1)
        fun module =>
          ∀ name, max 1 ((module.widths name).getD 0) = max 1 (busWidth m.busBits name) := by
    have hpos : ∀ bus ∈ bs.entries, 0 < bus.2.width := by
      intro bus hbus
      obtain ⟨index, hbit⟩ := hbs.exists_bit hbus
      rw [hbs.width_eq hbus]
      exact Nat.zero_lt_of_lt (lt_busWidth hbit)
    refine (answersIff_foldlM_materializeBus hpos fun name width h => ?_).imp ?_ ?_
    · rw [hscalar name width h]
      exact Nat.one_pos
    · rw [← pairwise_comesBefore_iff hbs]
      simp only [and_iff_right_iff_imp]
      exact fun _ bus _ index _ => hscalar _
    · intro module hwidths name
      have hlookup := hbs.known name
      rw [hwidths, foldl_widen bs.nodup_names]
      change max 1 (max _ (((bs.get? name).map (·.width)).getD 0)) = _
      rw [hlookup]
      cases hold : m.scalarModule.widths name with
      | none => simp
      | some old =>
        rw [hscalar name old hold, Option.getD_some, ← Nat.max_assoc, Nat.max_self]
  refine ((m.answersIff_buses.bind fun bs hbs => (hmodule bs hbs).bind fun module hmodule =>
    answersIff_ok (a := module.numberPorts.setBlackbox) trivial ?_).imp ?_ fun _ h => h)
  · intro name
    have hwidths : module.numberPorts.setBlackbox.widths = module.widths := module.widths_numberPorts
    rw [hwidths]
    exact hmodule name
  · constructor
    · rintro ⟨⟨hfits, hindices⟩, horder, -⟩
      exact ⟨hfits, hindices, horder⟩
    · intro h
      exact ⟨⟨h.fits, h.indices⟩, h.order, trivial⟩

end Model

end CircuitLowering
