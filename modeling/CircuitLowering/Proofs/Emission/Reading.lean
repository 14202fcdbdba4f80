import CircuitLowering.Emission.Driver
import CircuitLowering.Proofs.Emission.Ends
import CircuitLowering.Proofs.Netlist.Naming

/-!
# What an input pin reads

Resolving a pin asks the netlist many questions and changes it on the way.  Here the outcome is said
as functions of the netlist before: `isUndriven` tells which pins are tied to ground, `tie` is the
netlist with a pin tied if it has to be, and `reading` is the driver or the error that the pin leads
to.  `Emit.resolve_ends` says that resolving computes exactly these.

Tying moves a reader from one net to another.  No list of drivers changes, so tying one pin does
not change what another pin reads; these are the lemmas named after `tie`.
-/

namespace CircuitLowering

namespace Netlist

variable (nl : Netlist)

/-! ### Undriven pins -/

def drivers (w : NetId) : List PinId := nl.pinsOfNet w .output

def netOf? (id : PinId) : Option NetId := nl.pins[id]?.bind (·.net)

/-- Whether an input pin has no net, or has one that is neither driven nor constant. -/
def isUndriven (id : PinId) : Bool :=
  nl.pins[id]?.any fun p =>
    p.direction = .input && p.net.all fun w => (nl.drivers w).isEmpty && !isConstantNet w

def tie (id : PinId) : Netlist := if nl.isUndriven id then nl.connect groundNet id else nl

def netRead (id : PinId) : NetId :=
  if nl.isUndriven id then groundNet else (nl.netOf? id).getD groundNet

/-! ### The result of reading -/

def ownerName (id : PinId) : String :=
  ((nl.pins[id]?.bind fun p => nl.nodes[p.node]?).map (·.name)).getD ""

def label (id : PinId) : String := (nl.pinLabel id).toOption.getD ""

def diagnostic (id : PinId) : Diagnostic := { node := nl.ownerName id, pin := nl.label id }

def driverAt (pin : PinId) (padded : Bool) : Driver where
  pin := pin
  name := (nl.driverName pin).toOption.getD ""
  padded := padded
  constant := (nl.pins[pin]?.bind fun p => nl.nodes[p.node]?).bind (·.kind.constant?)

def netLabel (w : NetId) : String := ((nl.nets[w]?).bind (·.name)).getD ("w" ++ toString w)

/-- What a pin leads to: its one driver, or the error that it has none or several. -/
def reading (id : PinId) : Except EmitError Driver :=
  match nl.drivers (nl.netRead id) with
  | [] => .error (.missingDriver (nl.netLabel (nl.netRead id)))
  | [driver] => .ok (nl.driverAt driver (nl.isUndriven id))
  | drivers => .error (.multipleDrivers (nl.ownerName id) (nl.label id) drivers.length)

def readError? (id : PinId) : Option EmitError :=
  match nl.reading id with
  | .ok _ => none
  | .error e => some e

/-- A pin is read without error where its net has one driver. -/
theorem readError?_eq_none_iff (id : PinId) :
    nl.readError? id = none ↔ (nl.drivers (nl.netRead id)).length = 1 := by
  unfold readError? reading
  rcases nl.drivers (nl.netRead id) with _ | ⟨driver, _ | ⟨other, rest⟩⟩ <;> simp

variable {nl}

theorem isUndriven_iff {id : PinId} :
    nl.isUndriven id = true ↔ ∃ p, nl.pins[id]? = some p ∧ p.direction = .input ∧
      ∀ w, p.net = some w → nl.drivers w = [] ∧ isConstantNet w = false := by
  simp [isUndriven, Option.any_eq_true, Option.all_eq_true, List.isEmpty_iff]

/-- An input pin that is not undriven is read from its own net. -/
theorem netOf?_of_not_undriven {id : PinId} {p : Pin} (hp : nl.pins[id]? = some p)
    (hinput : p.direction = .input) (h : ¬ nl.isUndriven id) :
    ∃ w, nl.netOf? id = some w ∧ nl.netRead id = w ∧ (nl.drivers w = [] → isConstantNet w) := by
  cases hnet : p.net with
  | none => exact absurd (isUndriven_iff.mpr ⟨p, hp, hinput, by simp [hnet]⟩) h
  | some w =>
    have hnetOf : nl.netOf? id = some w := by simp [netOf?, hp, hnet]
    refine ⟨w, hnetOf, by simp [netRead, h, hnetOf], ?_⟩
    intro hnil
    cases hconstant : isConstantNet w with
    | true => rfl
    | false =>
      refine absurd (isUndriven_iff.mpr ⟨p, hp, hinput, fun w' hw' => ?_⟩) h
      rw [hnet, Option.some.injEq] at hw'
      exact hw' ▸ ⟨hnil, hconstant⟩

/-! ### Naming the outputs first

What a pin is read from is a matter of the graph, and input pins keep their labels. -/

section Graph

variable {nl' : Netlist}

theorem drivers_of_graph (h : nl'.graph = nl.graph) : nl'.drivers = nl.drivers := by
  have hnets : nl'.graph.pinsOfNet = nl.graph.pinsOfNet := by rw [h]
  funext w
  exact congrFun (congrFun hnets w) .output

theorem netOf?_of_graph (h : nl'.graph = nl.graph) (id : PinId) : nl'.netOf? id = nl.netOf? id := by
  have hnet := map_pins_of_graph h (·.net) (fun _ => rfl) id
  unfold netOf?
  cases hnew : nl'.pins[id]? <;> cases hold : nl.pins[id]? <;> simp_all

theorem isUndriven_of_graph (h : nl'.graph = nl.graph) (id : PinId) :
    nl'.isUndriven id = nl.isUndriven id := by
  have hpin := map_pins_of_graph h (fun p => (p.direction, p.net)) (fun _ => rfl) id
  have hany := congrArg (Option.any fun (q : Direction × Option NetId) =>
    q.1 = .input && q.2.all fun w => (nl.drivers w).isEmpty && !isConstantNet w) hpin
  simpa only [isUndriven, drivers_of_graph h, Option.any_map, Function.comp_def] using hany

theorem netRead_of_graph (h : nl'.graph = nl.graph) (id : PinId) :
    nl'.netRead id = nl.netRead id := by
  rw [netRead, netRead, isUndriven_of_graph h, netOf?_of_graph h]

theorem ownerName_of_graph (h : nl'.graph = nl.graph) (id : PinId) :
    nl'.ownerName id = nl.ownerName id := by
  have hnode := map_pins_of_graph h (·.node) (fun _ => rfl) id
  have hname := map_nodes_of_graph h (·.name) fun _ => rfl
  unfold ownerName
  cases hnew : nl'.pins[id]? <;> cases hold : nl.pins[id]? <;> simp_all

/-- A pin that has kept its own name and those of its node and port is reported as before. -/
theorem diagnostic_of_graph (h : nl'.graph = nl.graph) {id : PinId}
    (hpin : nl'.pins[id]? = nl.pins[id]?) : nl'.diagnostic id = nl.diagnostic id := by
  have hlabel : nl'.pinLabel id = nl.pinLabel id := by
    unfold pinLabel pin node
    rw [hpin]
    cases hp : nl.pins[id]? with
    | none => rfl
    | some p =>
      have hname := map_nodes_of_graph h (·.name) (fun _ => rfl) p.node
      cases hnew : nl'.nodes[p.node]? <;> cases hold : nl.nodes[p.node]? <;>
        simp_all [bind, Except.bind]
  unfold diagnostic label
  rw [ownerName_of_graph h, hlabel]

/-- Such a pin leads to the error that it led to before. -/
theorem readError?_of_graph (h : nl'.graph = nl.graph) {id : PinId}
    (hpin : nl'.pins[id]? = nl.pins[id]?) : nl'.readError? id = nl.readError? id := by
  have hnets : nl'.nets = nl.nets := (congrArg Netlist.nets h : nl'.graph.nets = nl.graph.nets)
  have hlabel : nl'.label id = nl.label id := congrArg Diagnostic.pin (diagnostic_of_graph h hpin)
  unfold readError? reading netLabel
  rw [drivers_of_graph h, netRead_of_graph h, ownerName_of_graph h, hlabel, hnets]
  rcases nl.drivers (nl.netRead id) with _ | ⟨driver, _ | ⟨other, rest⟩⟩ <;> rfl

end Graph

theorem CrossReferenced.diagnostic_instantiateAll (hnl : nl.CrossReferenced) {id : PinId} {p : Pin}
    (hp : nl.pins[id]? = some p) (hinput : p.direction = .input) (mark : UInt16) :
    (nl.instantiateAll mark).diagnostic id = nl.diagnostic id :=
  diagnostic_of_graph (nl.graph_instantiateAll mark)
    ((hnl.pins_instantiateAll hp hinput mark).trans hp.symm)

/-! ### Tying a pin -/

/-- Moving an input pin changes nothing of nets but their readers. -/
theorem map_nets_connect {α : Type} (f : Net → α) (hf : ∀ n sinks, f { n with sinks } = f n)
    {net : NetId} {pin : PinId} {p : Pin} (hpin : nl.pins[pin]? = some p)
    (hinput : p.direction = .input) (w : NetId) :
    ((nl.connect net pin).nets[w]?).map f = (nl.nets[w]?).map f := by
  have hmodify (nets : Array Net) (k : NetId) (g : Net → Net) (hg : ∀ n, f (g n) = f n) :
      ((nets.modify k g)[w]?).map f = (nets[w]?).map f := by
    rw [Array.getElem?_modify]
    split
    · cases nets[w]? with
      | none => rfl
      | some n => exact congrArg some (hg n)
    · rfl
  have hattach (nets : Array Net) :
      ((nets.modify net (·.attach pin .input))[w]?).map f = (nets[w]?).map f :=
    hmodify nets net _ fun n => hf n _
  cases hold : p.net with
  | none => simp only [connect, hpin, hinput, hold, hattach]
  | some old =>
    have hdetach := hmodify nl.nets old (·.detach pin .input) fun n => hf n _
    simp only [connect, hpin, hinput, hold, hattach, hdetach]

theorem tie_of_not_undriven {id : PinId} (h : ¬ nl.isUndriven id) : nl.tie id = nl :=
  if_neg h

@[simp] theorem nodes_tie (id : PinId) : (nl.tie id).nodes = nl.nodes := by
  unfold tie
  split <;> simp

theorem getElem?_pins_tie (id j : PinId) :
    (nl.tie id).pins[j]? =
      if j = id ∧ nl.isUndriven id then (nl.pins[j]?).map ({ · with net := some groundNet })
      else nl.pins[j]? := by
  unfold tie
  by_cases h : nl.isUndriven id <;> simp [h, getElem?_pins_connect]

theorem map_nets_tie (nl : Netlist) {α : Type} (f : Net → α)
    (hf : ∀ n sinks, f { n with sinks } = f n) (id : PinId) (w : NetId) :
    ((nl.tie id).nets[w]?).map f = (nl.nets[w]?).map f := by
  unfold tie
  split
  · next h =>
    obtain ⟨p, hp, hinput, -⟩ := isUndriven_iff.mp h
    exact map_nets_connect f hf hp hinput w
  · rfl

/-- No list of drivers changes. -/
@[simp] theorem drivers_tie (id : PinId) (w : NetId) : (nl.tie id).drivers w = nl.drivers w :=
  congrArg (·.getD []) (nl.map_nets_tie (·.pins .output) (fun _ _ => rfl) id w)

@[simp] theorem netLabel_tie (id : PinId) (w : NetId) : (nl.tie id).netLabel w = nl.netLabel w := by
  have hname := nl.map_nets_tie (·.name) (fun _ _ => rfl) id w
  unfold netLabel
  cases hnew : (nl.tie id).nets[w]? <;> cases hold : nl.nets[w]? <;> simp_all

/-- A pin that was tied is not undriven any longer, and no other pin becomes or ceases to be so. -/
theorem isUndriven_tie (id j : PinId) :
    (nl.tie id).isUndriven j = (nl.isUndriven j && j ≠ id) := by
  by_cases h : nl.isUndriven id
  · unfold isUndriven
    simp only [getElem?_pins_tie, drivers_tie, h, and_true]
    by_cases hj : j = id
    · subst hj
      cases nl.pins[j]? <;> simp [isConstantNet, groundNet]
    · simp [hj]
  · rw [tie_of_not_undriven h]
    by_cases hj : j = id
    · subst hj
      simp [h]
    · simp [hj]

@[simp] theorem netRead_tie (id j : PinId) : (nl.tie id).netRead j = nl.netRead j := by
  unfold netRead netOf?
  rw [isUndriven_tie, getElem?_pins_tie]
  by_cases hj : j = id
  · subst hj
    by_cases h : nl.isUndriven j
    · cases nl.pins[j]? <;> simp [h]
    · simp [h]
  · simp [hj]

/-! Tying keeps everything of a pin but its net, so all that is told of pins by name stays. -/

theorem pins_tie_cases (nl : Netlist) (id j : PinId) :
    (nl.tie id).pins[j]? = nl.pins[j]? ∨
      ∃ p, nl.pins[j]? = some p ∧ (nl.tie id).pins[j]? = some { p with net := some groundNet } := by
  rw [getElem?_pins_tie]
  split
  · cases nl.pins[j]? with
    | none => exact Or.inl rfl
    | some p => exact Or.inr ⟨p, rfl, rfl⟩
  · exact Or.inl rfl

@[simp] theorem pinLabel_tie (id j : PinId) : (nl.tie id).pinLabel j = nl.pinLabel j := by
  unfold pinLabel pin node
  rcases nl.pins_tie_cases id j with h | ⟨p, hp, h⟩
  · rw [h, nodes_tie]
  · rw [h, hp, nodes_tie]
    rfl

@[simp] theorem driverName_tie (id j : PinId) : (nl.tie id).driverName j = nl.driverName j := by
  unfold driverName pin node
  rcases nl.pins_tie_cases id j with h | ⟨p, hp, h⟩
  · rw [h, nodes_tie]
  · rw [h, hp, nodes_tie]
    rfl

theorem owner_tie (id j : PinId) :
    ((nl.tie id).pins[j]?.bind fun p => (nl.tie id).nodes[p.node]?)
      = nl.pins[j]?.bind fun p => nl.nodes[p.node]? := by
  rcases nl.pins_tie_cases id j with h | ⟨p, hp, h⟩
  · rw [h, nodes_tie]
  · rw [h, hp, nodes_tie]
    rfl

@[simp] theorem diagnostic_tie (id j : PinId) : (nl.tie id).diagnostic j = nl.diagnostic j := by
  simp only [diagnostic, ownerName, label, owner_tie, pinLabel_tie]

@[simp] theorem driverAt_tie (id j : PinId) (padded : Bool) :
    (nl.tie id).driverAt j padded = nl.driverAt j padded := by
  simp only [driverAt, driverName_tie, owner_tie]

/-- Every pin, the tied one included, leads to an error just where it did before. -/
@[simp] theorem readError?_tie (id j : PinId) : (nl.tie id).readError? j = nl.readError? j := by
  unfold readError? reading
  simp only [drivers_tie, netRead_tie, netLabel_tie, label, ownerName, owner_tie, pinLabel_tie]
  rcases nl.drivers (nl.netRead j) with _ | ⟨driver, _ | ⟨other, rest⟩⟩ <;> rfl

end Netlist

end CircuitLowering
