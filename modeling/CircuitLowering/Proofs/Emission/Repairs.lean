import CircuitLowering.Proofs.Emission.Reading

/-!
# Repairs of a run

A run resolves pins one after the other, and ties each undriven one when it comes to it.
`Netlist.tieAll` is the netlist after a list of pins and `Netlist.repairs` what is reported of them;
both are said of the netlist before the first pin.  A pin that comes twice is tied and reported
once.  `Run.Settles` is how a run stands after a list of pins, and `Emit.resolve_ends` says that
resolving a pin settles it.
-/

namespace CircuitLowering

/-- A list may be thinned out before or after it is freed of repetitions. -/
theorem eraseDups_filter {α : Type} [BEq α] [LawfulBEq α] (p : α → Bool) (l : List α) :
    (l.filter p).eraseDups = l.eraseDups.filter p := by
  match l with
  | [] => rfl
  | a :: rest =>
    have hrest := eraseDups_filter p (rest.filter fun b => !b == a)
    rw [List.filter_filter] at hrest
    rw [List.eraseDups_cons]
    by_cases ha : p a
    · rw [List.filter_cons_of_pos ha, List.filter_cons_of_pos ha, List.eraseDups_cons, ← hrest,
        List.filter_filter]
      simp only [Bool.and_comm]
    · rw [List.filter_cons_of_neg ha, List.filter_cons_of_neg ha, ← hrest]
      refine congrArg List.eraseDups (List.filter_congr ?_)
      intro b _
      by_cases hb : b = a
      · simp [hb, ha]
      · simp [hb]
termination_by l.length
decreasing_by
  exact Nat.lt_succ_of_le (List.length_filter_le _ _)

namespace Netlist

def tieAll (nl : Netlist) (ids : List PinId) : Netlist := ids.foldl tie nl

/-- The pins of a list that are tied, in the order in which they come first. -/
def repaired (nl : Netlist) (ids : List PinId) : List PinId := ids.eraseDups.filter nl.isUndriven

def repairs (nl : Netlist) (ids : List PinId) : List Diagnostic :=
  (nl.repaired ids).map nl.diagnostic

section Ties

variable (nl : Netlist) (ids : List PinId)

theorem tieAll_append (ids' : List PinId) :
    nl.tieAll (ids ++ ids') = (nl.tieAll ids).tieAll ids' := by
  simp only [tieAll, List.foldl_append]

/-- What each tie keeps, a list of ties keeps. -/
theorem tieAll_keeps {α : Type} (f : Netlist → α) (hf : ∀ nl id, f (tie nl id) = f nl) :
    f (nl.tieAll ids) = f nl := by
  induction ids generalizing nl with
  | nil => rfl
  | cons id ids ih => exact (ih (nl.tie id)).trans (hf nl id)

@[simp] theorem nodes_tieAll : (nl.tieAll ids).nodes = nl.nodes :=
  nl.tieAll_keeps ids (·.nodes) fun _ id => nodes_tie id

@[simp] theorem drivers_tieAll (w : NetId) : (nl.tieAll ids).drivers w = nl.drivers w :=
  nl.tieAll_keeps ids (·.drivers w) fun _ id => drivers_tie id w

@[simp] theorem readError?_tieAll (j : PinId) : (nl.tieAll ids).readError? j = nl.readError? j :=
  nl.tieAll_keeps ids (·.readError? j) fun _ id => readError?_tie id j

@[simp] theorem diagnostic_tieAll (j : PinId) : (nl.tieAll ids).diagnostic j = nl.diagnostic j :=
  nl.tieAll_keeps ids (·.diagnostic j) fun _ id => diagnostic_tie id j

theorem isUndriven_tieAll (j : PinId) :
    (nl.tieAll ids).isUndriven j = (nl.isUndriven j && !ids.contains j) := by
  induction ids generalizing nl with
  | nil => simp [tieAll]
  | cons id ids ih =>
    change ((nl.tie id).tieAll ids).isUndriven j = _
    rw [ih, isUndriven_tie]
    by_cases hj : j = id <;> simp [hj]

/-- The net of a pin after a list of ties. -/
theorem netOf?_tieAll (j : PinId) :
    (nl.tieAll ids).netOf? j =
      if j ∈ nl.repaired ids then some groundNet else nl.netOf? j := by
  induction ids generalizing nl with
  | nil => simp [tieAll, repaired]
  | cons id ids ih =>
    change ((nl.tie id).tieAll ids).netOf? j = _
    rw [ih]
    simp only [repaired, List.mem_filter, List.mem_eraseDups, isUndriven_tie, List.mem_cons,
      netOf?, getElem?_pins_tie]
    by_cases hj : j = id
    · subst hj
      by_cases h : nl.isUndriven j
      · obtain ⟨p, hp, -⟩ := isUndriven_iff.mp h
        simp [h, hp]
      · simp [h]
    · simp [hj]

theorem repaired_append (ids' : List PinId) :
    nl.repaired (ids ++ ids') = nl.repaired ids ++ (nl.tieAll ids).repaired ids' := by
  unfold repaired
  rw [List.eraseDups_append, List.filter_append, List.removeAll, eraseDups_filter,
    List.filter_filter]
  refine congrArg _ (List.filter_congr ?_)
  intro j _
  rw [isUndriven_tieAll]

theorem repairs_append (ids' : List PinId) :
    nl.repairs (ids ++ ids') = nl.repairs ids ++ (nl.tieAll ids).repairs ids' := by
  have hdiagnostic : (nl.tieAll ids).diagnostic = nl.diagnostic :=
    funext fun j => nl.diagnostic_tieAll ids j
  unfold repairs
  rw [repaired_append, List.map_append, hdiagnostic]

theorem repairs_singleton (id : PinId) :
    nl.repairs [id] = if nl.isUndriven id then [nl.diagnostic id] else [] := by
  unfold repairs repaired
  by_cases h : nl.isUndriven id <;> simp [List.eraseDups_cons, h]

end Ties

end Netlist

/-! ### Runs -/

def Report.tally (r : Report) : Report := { r with diagnostics := [] }

/-- `r'` is how `r` stands after a list of pins: the pins are tied and what is reported of them
stands at the end of the diagnostics. -/
structure Run.Settles (r : Run) (ids : List PinId) (r' : Run) : Prop where
  netlist : r'.netlist = r.netlist.tieAll ids
  diagnostics : r'.report.diagnostics = r.report.diagnostics ++ r.netlist.repairs ids

/-- A run that keeps the netlist and the diagnostics settles nothing. -/
theorem Run.settles_nil {r r' : Run} (hnetlist : r'.netlist = r.netlist)
    (hdiagnostics : r'.report.diagnostics = r.report.diagnostics) : r.Settles [] r' where
  netlist := hnetlist
  diagnostics := by simp [hdiagnostics, Netlist.repairs, Netlist.repaired]

theorem Run.Settles.nodes {r r' : Run} {ids : List PinId} (h : r.Settles ids r') :
    r'.netlist.nodes = r.netlist.nodes := by rw [h.netlist, Netlist.nodes_tieAll]

theorem Run.Settles.pinsOfNode {r r' : Run} {ids : List PinId} (h : r.Settles ids r') :
    r'.netlist.pinsOfNode = r.netlist.pinsOfNode := by
  unfold Netlist.pinsOfNode
  rw [h.nodes]

theorem Run.Settles.trans {r r' r'' : Run} {ids ids' : List PinId} (h : r.Settles ids r')
    (h' : r'.Settles ids' r'') : r.Settles (ids ++ ids') r'' where
  netlist := by rw [h'.netlist, h.netlist, Netlist.tieAll_append]
  diagnostics := by
    rw [h'.diagnostics, h.diagnostics, h.netlist, Netlist.repairs_append, List.append_assoc]

namespace Emit

open Netlist

variable {r : Run}

theorem liveNet?_ends (p : Pin) :
    Ends (liveNet? p) r
      (fun live r' => r' = r ∧
        live = if p.net.all fun w => (r.netlist.drivers w).isEmpty && !isConstantNet w then none
          else p.net)
      fun _ _ => False := by
  unfold liveNet?
  cases p.net with
  | none => exact ends_pure ⟨rfl, rfl⟩
  | some w =>
    refine Ends.bind (ends_ask fun n hn => ends_pure ⟨rfl, ?_⟩)
    have hdrivers : r.netlist.drivers w = n.drivers := by
      simp [drivers, pinsOfNet, net_eq_ok_iff.mp hn, Net.pins]
    simp [hdrivers]

/-- Only an input pin can be tied to ground. -/
theorem tieToGround_ends (id : PinId) (node : String) :
    Ends (tieToGround id node) r
      (fun _ r' => (∃ p, r.netlist.pins[id]? = some p ∧ p.direction = .input) ∧
        r'.netlist = r.netlist.connect groundNet id ∧
        r'.report.diagnostics = r.report.diagnostics ++ [{ node, pin := r.netlist.label id }] ∧
        r'.report.tally = r.report.tally)
      fun _ _ => False := by
  unfold tieToGround
  refine Ends.bind (ends_ask ?_)
  intro label hlabel
  refine Ends.bind (ends_tell (Ends.bind (ends_modifyReport ?_)))
  refine Ends.bind (ends_ask fun nl hnl => ends_modifyNetlist ?_)
  obtain ⟨hinput, -, rfl⟩ := connectAs_eq_ok_iff.mp hnl
  exact ⟨hinput, rfl, by simp [Netlist.label, hlabel, Except.toOption], rfl⟩

theorem driverAt_ends (pin : PinId) (padded : Bool) :
    Ends (driverAt pin padded) r
      (fun d r' => r' = r ∧ d = r.netlist.driverAt pin padded) fun _ _ => False := by
  unfold driverAt
  refine Ends.bind (ends_ask fun name hname => Ends.bind (ends_ask fun owner howner => ?_))
  refine ends_pure ⟨rfl, ?_⟩
  cases hpin : r.netlist.pin pin with
  | error f => simp [hpin, bind, Except.bind] at howner
  | ok p =>
    simp only [hpin, bind, Except.bind] at howner
    simp [Netlist.driverAt, hname, Except.toOption, pin_eq_ok_iff.mp hpin,
      node_eq_ok_iff.mp howner]

/-- The driver or the error of a pin that has been settled. -/
theorem soleDriver_ends {r₁ : Run} {id : PinId} (hr₁ : r.Settles [id] r₁) :
    Ends (soleDriver id (r.netlist.ownerName id) (r.netlist.netRead id) (r.netlist.isUndriven id))
      r₁
      (fun d r' => r.netlist.reading id = .ok d ∧ r' = r₁)
      (fun e r' => r.netlist.reading id = .error e ∧ r' = r₁) := by
  have hnetlist : r₁.netlist = r.netlist.tie id := hr₁.netlist
  unfold soleDriver
  refine Ends.bind (ends_ask ?_)
  intro n hn
  rw [net_eq_ok_iff] at hn
  have hdrivers : r.netlist.drivers (r.netlist.netRead id) = n.drivers := by
    rw [← drivers_tie id, ← hnetlist]
    simp [drivers, pinsOfNet, hn, Net.pins]
  have hlabel : r.netlist.netLabel (r.netlist.netRead id)
      = n.name.getD ("w" ++ toString (r.netlist.netRead id)) := by
    rw [← netLabel_tie id, ← hnetlist]
    simp [netLabel, hn]
  unfold reading
  rw [hdrivers, hlabel]
  rcases n.drivers with _ | ⟨driver, _ | ⟨second, rest⟩⟩
  · exact ends_fail ⟨rfl, rfl⟩
  · refine (driverAt_ends _ _).imp ?_ fun _ _ h => h.elim
    intro d _ hend
    rcases hend with ⟨rfl, rfl⟩
    refine ⟨?_, rfl⟩
    rw [hnetlist, driverAt_tie]
  · refine Ends.bind (ends_ask fun label hlabel => ends_fail ⟨?_, rfl⟩)
    rw [hnetlist, pinLabel_tie] at hlabel
    simp [Netlist.label, hlabel, Except.toOption]

/-- Resolving a pin settles it and answers with its reading. -/
theorem resolve_ends (id : PinId) :
    Ends (resolve id) r
      (fun d r' => r.netlist.reading id = .ok d ∧ r.Settles [id] r' ∧
        r'.report.tally = r.report.tally)
      (fun e r' => r.netlist.reading id = .error e ∧ r.Settles [id] r' ∧
        r'.report.tally = r.report.tally) := by
  unfold resolve
  refine Ends.bind (ends_ask fun p hp => Ends.bind (ends_ask fun n hn => ?_))
  rw [pin_eq_ok_iff] at hp
  rw [node_eq_ok_iff] at hn
  have howner : r.netlist.ownerName id = n.name := by simp [ownerName, hp, hn]
  refine Ends.bind ((liveNet?_ends p).imp ?_ fun _ _ h => h.elim)
  intro live r hend
  rcases hend with ⟨rfl, hlive⟩
  by_cases hdead : p.net.all fun w => (r.netlist.drivers w).isEmpty && !isConstantNet w
  · -- the pin is tied, which shows that it is an input pin
    rw [if_pos hdead] at hlive
    subst hlive
    refine Ends.bind ((tieToGround_ends id n.name).imp ?_ fun _ _ h => h.elim)
    intro _ r₁ hend
    rcases hend with ⟨⟨q, hq, hinput⟩, hnetlist, hdiagnostics, htally⟩
    rw [hp, Option.some.injEq] at hq
    subst hq
    have hundriven : r.netlist.isUndriven id = true := by simp [isUndriven, hp, hinput, hdead]
    have hsettles : r.Settles [id] r₁ := by
      constructor
      · simpa [tieAll, tie, hundriven] using hnetlist
      · rw [hdiagnostics, repairs_singleton, if_pos hundriven, diagnostic, howner]
    have hsole := soleDriver_ends hsettles
    rw [howner, hundriven, netRead, if_pos hundriven] at hsole
    refine hsole.imp ?_ ?_
    · intro d _ hend
      rcases hend with ⟨hreading, rfl⟩
      exact ⟨hreading, hsettles, htally⟩
    · intro e _ hend
      rcases hend with ⟨hreading, rfl⟩
      exact ⟨hreading, hsettles, htally⟩
  · -- nothing is tied, and the pin names the net that it is read from
    rw [if_neg hdead] at hlive
    have hundriven : r.netlist.isUndriven id = false := by simp [isUndriven, hp, hdead]
    have hsettles : r.Settles [id] r := by
      constructor
      · simp [tieAll, tie, hundriven]
      · simp [repairs_singleton, hundriven]
    obtain ⟨w, hw⟩ : ∃ w, p.net = some w := by
      cases hnet : p.net with
      | none => simp [hnet] at hdead
      | some w => exact ⟨w, rfl⟩
    subst hlive
    have hsole := soleDriver_ends hsettles
    rw [howner, hundriven, netRead, if_neg (by simp [hundriven]), netOf?, hp] at hsole
    rw [hw]
    simp only [Option.bind_some, hw, Option.getD_some] at hsole
    refine hsole.imp ?_ ?_
    · intro d _ hend
      rcases hend with ⟨hreading, rfl⟩
      exact ⟨hreading, hsettles, rfl⟩
    · intro e _ hend
      rcases hend with ⟨hreading, rfl⟩
      exact ⟨hreading, hsettles, rfl⟩

end Emit

end CircuitLowering
