import CircuitLowering.Proofs.Emission.Repairs
import Mathlib.Data.List.Basic

/-!
# A netlist after ties

What a list of ties does to a netlist, place by place.  The pins that are tied have moved to ground and
are otherwise as they were; the nets that they named have lost them, and the ground net has got them, in
the order in which they were tied.  In a cross-referenced netlist the nets need not be asked for which
pins they lose: they lose all pins that were tied (`Netlist.CrossReferenced.sinksAfter_eq`).
-/

namespace CircuitLowering

namespace Netlist

variable (nl : Netlist) (ids : List PinId)

/-! ### Pins -/

theorem getElem?_pins_tieAll (j : PinId) :
    (nl.tieAll ids).pins[j]? = (nl.pins[j]?).map fun p =>
      { p with net := if j ∈ nl.repaired ids then some groundNet else p.net } := by
  induction ids generalizing nl with
  | nil => simp [tieAll, repaired]
  | cons id ids ih =>
    change ((nl.tie id).tieAll ids).pins[j]? = _
    rw [ih, getElem?_pins_tie]
    simp only [repaired, List.mem_filter, List.mem_eraseDups, isUndriven_tie, List.mem_cons]
    by_cases hj : j = id
    · subst hj
      by_cases h : nl.isUndriven j
      · simp [h, Function.comp_def]
      · simp [h]
    · simp [hj]

theorem repaired_singleton (id : PinId) :
    nl.repaired [id] = if nl.isUndriven id then [id] else [] := by
  by_cases h : nl.isUndriven id <;> simp [repaired, List.eraseDups_cons, h]

theorem repaired_cons (id : PinId) :
    nl.repaired (id :: ids) = nl.repaired [id] ++ (nl.tie id).repaired ids :=
  nl.repaired_append [id] ids

theorem ne_of_mem_repaired_tie {id q : PinId} (hq : q ∈ (nl.tie id).repaired ids) : q ≠ id := by
  have hundriven := (List.mem_filter.mp hq).2
  rw [isUndriven_tie, Bool.and_eq_true, decide_eq_true_eq] at hundriven
  exact hundriven.2

/-- No pin is tied twice. -/
theorem nodup_repaired : (nl.repaired ids).Nodup := by
  induction ids generalizing nl with
  | nil => exact List.nodup_nil
  | cons id ids ih =>
    rw [repaired_cons, repaired_singleton]
    split
    · exact List.nodup_cons.mpr ⟨fun hid => nl.ne_of_mem_repaired_tie ids hid rfl, ih (nl.tie id)⟩
    · exact ih (nl.tie id)

/-! ### Nets -/

/-- Whether a pin leaves a net when a list of pins is tied. -/
def leaves (w : NetId) (id : PinId) : Bool := id ∈ nl.repaired ids ∧ nl.netOf? id = some w

/-- The readers of a net once a list of pins is tied. Those that come to ground come last there. -/
def sinksAfter (w : NetId) (sinks : List PinId) : List PinId :=
  sinks.filter (fun id => !nl.leaves ids w id) ++ if w = groundNet then nl.repaired ids else []

theorem leaves_cons (id : PinId) (w : NetId) (q : PinId) :
    nl.leaves (id :: ids) w q = (nl.leaves [id] w q || (nl.tie id).leaves ids w q) := by
  have hnetOf (hq : q ≠ id) : (nl.tie id).netOf? q = nl.netOf? q := by
    rw [netOf?, getElem?_pins_tie, if_neg fun h => hq h.1]
    rfl
  unfold leaves
  rw [repaired_cons, ← Bool.decide_or, decide_eq_decide, List.mem_append, or_and_right]
  refine or_congr_right (and_congr_right fun hq => ?_)
  rw [hnetOf (nl.ne_of_mem_repaired_tie ids hq)]

theorem sinksAfter_cons (id : PinId) (w : NetId) (sinks : List PinId) :
    (nl.tie id).sinksAfter ids w (nl.sinksAfter [id] w sinks) = nl.sinksAfter (id :: ids) w sinks := by
  have hkept : (nl.repaired [id]).filter (fun q => !(nl.tie id).leaves ids w q) = nl.repaired [id] := by
    rw [List.filter_eq_self]
    intro q hq
    have hsame : q = id := by simpa using List.mem_eraseDups.mp (List.mem_filter.mp hq).1
    have hnot : q ∉ (nl.tie id).repaired ids := fun h => nl.ne_of_mem_repaired_tie ids h hsame
    simp [leaves, hnot]
  unfold sinksAfter
  rw [List.filter_append, List.filter_filter, List.append_assoc]
  refine congrArg₂ (· ++ ·) (List.filter_congr fun q _ => ?_) ?_
  · rw [nl.leaves_cons ids, Bool.not_or, Bool.and_comm]
  · by_cases hw : w = groundNet
    · rw [if_pos hw, if_pos hw, if_pos hw, hkept, nl.repaired_cons ids]
    · rw [if_neg hw, if_neg hw, if_neg hw]
      rfl

theorem getElem?_nets_connect {pin : PinId} {p : Pin} (hp : nl.pins[pin]? = some p)
    (hinput : p.direction = .input) {net : NetId} (hne : p.net ≠ some net) (w : NetId) :
    (nl.connect net pin).nets[w]? = (nl.nets[w]?).map fun n =>
      if w = net then n.attach pin .input else if p.net = some w then n.detach pin .input else n := by
  unfold connect
  rw [hp]
  dsimp only
  rw [hinput, Array.getElem?_modify]
  cases hold : p.net with
  | none =>
    dsimp only
    by_cases hw : net = w
    · simp [hw]
    · simp [hw, Ne.symm hw]
  | some old =>
    rw [hold] at hne
    dsimp only
    rw [Array.getElem?_modify]
    by_cases hw : net = w
    · subst hw
      simp_all
    · by_cases ho : old = w
      · subst ho
        simp [hw, Ne.symm hw]
      · simp [hw, ho, Ne.symm hw]

theorem getElem?_nets_tie (id : PinId) (w : NetId) :
    (nl.tie id).nets[w]? =
      (nl.nets[w]?).map fun n => { n with sinks := nl.sinksAfter [id] w n.sinks } := by
  unfold tie sinksAfter leaves
  rw [repaired_singleton]
  by_cases h : nl.isUndriven id
  · obtain ⟨p, hp, hinput, hnet⟩ := isUndriven_iff.mp h
    have hne : p.net ≠ some groundNet := fun hground => absurd (hnet _ hground).2 (by decide)
    have hleaves (q : PinId) : (q ∈ [id] ∧ nl.netOf? q = some w) ↔ q = id ∧ p.net = some w := by
      rw [List.mem_singleton]
      refine and_congr_right fun hq => ?_
      rw [hq, netOf?, hp, Option.bind_some]
    simp only [if_pos h, hleaves]
    rw [getElem?_nets_connect nl hp hinput hne]
    refine congrArg (Option.map · nl.nets[w]?) (funext fun n => ?_)
    by_cases hw : w = groundNet
    · subst hw
      simp [hne, Net.attach]
    · by_cases hold : p.net = some w
      · simp [hw, hold, Net.detach]
      · simp [hw, hold]
  · simp [h]

theorem getElem?_nets_tieAll (w : NetId) :
    (nl.tieAll ids).nets[w]? =
      (nl.nets[w]?).map fun n => { n with sinks := nl.sinksAfter ids w n.sinks } := by
  induction ids generalizing nl with
  | nil => simp [tieAll, sinksAfter, leaves, repaired]
  | cons id ids ih =>
    change ((nl.tie id).tieAll ids).nets[w]? = _
    rw [ih, getElem?_nets_tie, Option.map_map]
    refine congrArg (Option.map · nl.nets[w]?) (funext fun n => ?_)
    rw [← sinksAfter_cons]
    rfl

variable {nl ids}

/-- A net lists only pins that name it, so it is left by all of them that are moved. -/
theorem CrossReferenced.sinksAfter_eq (hnl : nl.CrossReferenced) {w : NetId} {n : Net}
    (hn : nl.nets[w]? = some n) : nl.sinksAfter ids w n.sinks =
      if w = groundNet then n.sinks ++ nl.repaired ids
      else n.sinks.filter (· ∉ nl.repaired ids) := by
  have hleaves : ∀ id ∈ n.sinks, nl.leaves ids w id = decide (id ∈ nl.repaired ids) := by
    intro id hid
    have hmem : id ∈ nl.pinsOfNet w .input := by
      rw [pinsOfNet, hn]
      exact hid
    obtain ⟨p, hp, hnet, -⟩ := (hnl.mem_pinsOfNet .input).mp hmem
    have hnetOf : nl.netOf? id = some w := by rw [netOf?, hp, Option.bind_some, hnet]
    simp [leaves, hnetOf]
  have hfilter : n.sinks.filter (fun id => !nl.leaves ids w id) =
      n.sinks.filter (· ∉ nl.repaired ids) :=
    List.filter_congr fun id hid => by rw [hleaves id hid, decide_not]
  unfold sinksAfter
  rw [hfilter]
  by_cases hw : w = groundNet
  · rw [if_pos hw, if_pos hw]
    subst hw
    refine congrArg (· ++ _) (List.filter_eq_self.mpr fun id hid => ?_)
    -- a pin on ground is not undriven
    have hnot : id ∉ nl.repaired ids := by
      intro hrepaired
      have hleave := (hleaves id hid).trans (decide_eq_true hrepaired)
      obtain ⟨-, hground⟩ : id ∈ nl.repaired ids ∧ nl.netOf? id = some groundNet :=
        of_decide_eq_true hleave
      obtain ⟨p, hp, -, hnet⟩ := isUndriven_iff.mp (List.mem_filter.mp hrepaired).2
      rw [netOf?, hp, Option.bind_some] at hground
      exact absurd (hnet _ hground).2 (by decide)
    exact decide_eq_true hnot
  · rw [if_neg hw, if_neg hw, List.append_nil]

end Netlist

end CircuitLowering
