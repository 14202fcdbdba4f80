import CircuitLowering.Proofs.Design.Instances
import CircuitLowering.Proofs.Design.Interface
import CircuitLowering.Proofs.Design.Regrouping

/-!
# Which cells can be made

The pins of an instance are put together to buses by the names under which they are bound, whatever
these names are.  A bus reaches up to the highest index that is bound and up to the wire of its name in
the module of the callee, so the one thing that can go wrong is that it does not fit memory
(`Cell.answersIff_ofInstance`).  The cells of built-in kinds have no buses; a table must fit memory
(`Cell.answersIff_ofPrimitive`).
-/

namespace CircuitLowering

open Text

namespace Capacity

theorem fits_max {itemBytes count count' : Nat} :
    fits itemBytes (max count count') = true ↔
      fits itemBytes count = true ∧ fits itemBytes count' = true := by
  simp only [fits_iff]
  rcases Nat.le_total count count' with h | h
  · rw [Nat.max_eq_right h]
    exact ⟨fun hfits => ⟨(Nat.mul_le_mul_left itemBytes h).trans hfits, hfits⟩, fun hfits => hfits.2⟩
  · rw [Nat.max_eq_left h]
    exact ⟨fun hfits => ⟨hfits, (Nat.mul_le_mul_left itemBytes h).trans hfits⟩, fun hfits => hfits.1⟩

/-- The highest of some indices can be reached where all of them can. -/
theorem fits_foldl_max {itemBytes first : Nat} {indices : List Nat} :
    fits itemBytes (indices.foldl max first + 1) = true ↔
      fits itemBytes (first + 1) = true ∧ ∀ index ∈ indices, fits itemBytes (index + 1) = true := by
  induction indices generalizing first with
  | nil => simp
  | cons index indices ih =>
    rw [List.foldl_cons, ih, ← Nat.add_max_add_right, fits_max, List.forall_mem_cons, and_assoc]

theorem answersIff_ensure (itemBytes count : Nat) :
    AnswersIff (ensure itemBytes count) (fits itemBytes count = true) fun _ => True := by
  unfold ensure
  split
  · next h => exact answersIff_ok h trivial
  · next h => exact answersIff_overflow h

/-- As many bits as a signal can have are counted in 64 bits. -/
theorem lt_indexLimit_of_fits {count : Nat} (h : fits signalBitBytes count = true) :
    count < Subscript.indexLimit := by
  rw [fits_iff] at h
  simp only [signalBitBytes, maxBytes, Subscript.indexLimit, UInt64.size] at h ⊢
  omega

end Capacity

/-! ### Buses of cells -/

namespace CellBuses

variable {calleeWidth? : String → Option Nat}

/-- One more than the highest index of a bus; zero if it has no bits. -/
def reach (bits : List (Nat × SignalBit)) : Nat :=
  if bits.isEmpty then 0 else (bits.map Prod.fst).foldl max 0 + 1

theorem fits_reach {bits : List (Nat × SignalBit)} :
    Capacity.fits Capacity.signalBitBytes (reach bits) = true ↔
      ∀ index ∈ bits.map Prod.fst, Capacity.fits Capacity.signalBitBytes (index + 1) = true := by
  unfold reach
  split
  · next hnone =>
    rw [List.isEmpty_iff] at hnone
    subst hnone
    simp [Capacity.fits]
  · rw [Capacity.fits_foldl_max]
    simp [Capacity.fits, Capacity.signalBitBytes, Capacity.maxBytes]

theorem answersIff_observedWidth (bits : List (Nat × SignalBit)) :
    AnswersIff (observedWidth bits) (reach bits < Subscript.indexLimit) fun width => width = reach bits := by
  unfold observedWidth reach
  split
  · exact answersIff_ok (by decide) rfl
  · unfold indexSuccessor
    split
    · next h => exact answersIff_ok h rfl
    · next h => exact answersIff_overflow h

/-- Whether the bits of a bus and the wire of its name in the callee fit memory. -/
def BusFits (calleeWidth? : String → Option Nat) (bus : String × List (Nat × SignalBit)) : Prop :=
  (∀ index ∈ bus.2.map Prod.fst, Capacity.fits Capacity.signalBitBytes (index + 1) = true) ∧
    Capacity.fits Capacity.signalBitBytes ((calleeWidth? bus.1).getD 0) = true

theorem answersIff_materializeFrom (m : Module) (buses : List (String × List (Nat × SignalBit))) :
    AnswersIff (materializeFrom m calleeWidth? buses) (∀ bus ∈ buses, BusFits calleeWidth? bus)
      fun _ => True := by
  induction buses generalizing m with
  | nil => exact answersIff_ok (by simp) trivial
  | cons bus buses ih =>
    obtain ⟨base, bits⟩ := bus
    let width := max (reach bits) ((calleeWidth? base).getD 0)
    refine ((answersIff_observedWidth bits).bind
      (D := Capacity.fits Capacity.signalBitBytes width = true ∧ ∀ bus ∈ buses, BusFits calleeWidth? bus)
      fun observed hobserved => ?_).imp ?_ fun _ h => h
    · subst hobserved
      refine (Capacity.answersIff_ensure _ width).bind fun _ _ => ?_
      refine ((ih (fill bits m 0 width).2).bind fun rest _ => answersIff_ok trivial trivial).imp ?_
        fun _ h => h
      simp
    · rw [Capacity.fits_max, fits_reach, List.forall_mem_cons]
      refine and_iff_right_of_imp ?_
      rintro ⟨⟨hbits, -⟩, -⟩
      exact Capacity.lt_indexLimit_of_fits (fits_reach.mpr hbits)

/-! ### Collected bits -/

variable {bs : CellBuses} {bits : List (String × Nat)}

/-- Whether buses have bits at the indices of a list and nowhere else. -/
structure Gathers (bs : CellBuses) (bits : List (String × Nat)) : Prop where
  names : ∀ base, base ∈ bs.names ↔ base ∈ bits.map Prod.fst
  indices : ∀ base index, index ∈ ((bs.get? base).getD []).map Prod.fst ↔ (base, index) ∈ bits

theorem gathers_empty : Gathers .empty [] where
  names _ := Iff.rfl
  indices _ _ := by simp [Ordered.empty, Ordered.get?]

theorem Gathers.insert (h : bs.Gathers bits) (base : String) (index : Nat) (bit : SignalBit) :
    Gathers (bs.insert base ((index, bit) :: (bs.get? base).getD [])) (bits ++ [(base, index)]) := by
  constructor
  · intro other
    rw [Ordered.names_insert, List.map_append, List.mem_append, ← h.names]
    split
    · next hknown =>
      refine (or_iff_left_of_imp ?_).symm
      intro hother
      rwa [List.mem_singleton.mp hother]
    · exact List.mem_append
  · intro other position
    rw [List.mem_append, List.mem_singleton, ← h.indices]
    by_cases hother : other = base
    · subst hother
      simp [or_comm]
    · simp [Ordered.get?_insert_of_ne bs hother, hother]

theorem Gathers.foldl_bindScalars (h : bs.Gathers bits) (direction : Direction) (c : Cell)
    (bindings : List (String × SignalBit)) :
    (bindings.foldl (Cell.bindScalars direction) (c, bs)).2.Gathers
      (bits ++ bindings.filterMap (Subscript.split? ·.1)) := by
  induction bindings generalizing c bs bits with
  | nil => simpa using h
  | cons binding bindings ih =>
    rw [List.foldl_cons, List.filterMap_cons]
    unfold Cell.bindScalars take?
    cases Subscript.split? binding.1 with
    | none => exact ih h _
    | some position =>
      have hrest := ih (h.insert position.1 position.2 binding.2) c
      rw [List.append_assoc] at hrest
      exact hrest

theorem Gathers.forall_busFits (h : bs.Gathers bits) :
    (∀ bus ∈ bs.entries, BusFits calleeWidth? bus) ↔
      ∀ bit ∈ bits, Capacity.fits Capacity.signalBitBytes (bit.2 + 1) = true ∧
        Capacity.fits Capacity.signalBitBytes ((calleeWidth? bit.1).getD 0) = true := by
  constructor
  · intro hfits bit hbit
    have hname : bit.1 ∈ bs.names := (h.names _).mpr (List.mem_map_of_mem hbit)
    obtain ⟨bus, hbus, hbase⟩ := List.mem_map.mp hname
    have hindex := (h.indices bit.1 bit.2).mpr hbit
    rw [← hbase, Ordered.get?_eq_some_iff.mpr hbus, Option.getD_some] at hindex
    rw [← hbase]
    exact ⟨(hfits bus hbus).1 bit.2 hindex, (hfits bus hbus).2⟩
  · intro hfits bus hbus
    have hget := Ordered.get?_eq_some_iff.mpr hbus
    constructor
    · intro index hindex
      have hbit := (h.indices bus.1 index).mp (by rwa [hget])
      exact (hfits _ hbit).1
    · have hname : bus.1 ∈ bits.map Prod.fst := (h.names _).mp (List.mem_map_of_mem hbus)
      obtain ⟨bit, hbit, hbase⟩ := List.mem_map.mp hname
      rw [← hbase]
      exact (hfits bit hbit).2

end CellBuses

/-! ### Cells of primitives -/

namespace Cell

/-- An instance is made where each bus reaches no further than memory. -/
theorem answersIff_ofInstance (m : Module) (c : Cell) (calleeWidth? : String → Option Nat)
    (inputs outputs : List (String × SignalBit)) :
    AnswersIff (ofInstance m c calleeWidth? inputs outputs)
      (∀ bit ∈ (inputs ++ outputs).filterMap (Subscript.split? ·.1),
        Capacity.fits Capacity.signalBitBytes (bit.2 + 1) = true ∧
          Capacity.fits Capacity.signalBitBytes ((calleeWidth? bit.1).getD 0) = true)
      fun _ => True := by
  have hinputs := CellBuses.gathers_empty.foldl_bindScalars .input c inputs
  have houtputs := CellBuses.gathers_empty.foldl_bindScalars .output
    (inputs.foldl (bindScalars .input) (c, Ordered.empty)).1 outputs
  rw [List.nil_append] at hinputs houtputs
  refine ((CellBuses.answersIff_materializeFrom m _).bind fun first _ =>
    (CellBuses.answersIff_materializeFrom first.2 _).bind fun second _ =>
      answersIff_ok trivial trivial).imp ?_ fun _ h => h
  rw [hinputs.forall_busFits, houtputs.forall_busFits, List.filterMap_append, List.forall_mem_append]
  simp

end Cell

end CircuitLowering
