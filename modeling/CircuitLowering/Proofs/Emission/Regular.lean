import CircuitLowering.Proofs.Netlist.Constants

/-!
# Actions that keep their promises

An action stops as a predicate says if it ends with an answer or with a failure that the predicate
allows.  It is regular in a run if it ends there with an answer or with an error of the circuit, and
never with a broken promise.  In a netlist that is wired no reference is dangling and there is a ground
net, so resolving an input pin is regular (`Emit.regular_resolve`).
-/

namespace CircuitLowering

/-- The drivers of a net exist. -/
theorem Netlist.CrossReferenced.pin_of_driver {nl : Netlist} (hnl : nl.CrossReferenced) {id : PinId}
    {w : NetId} (hid : id ∈ nl.drivers w) : ∃ p, nl.pins[id]? = some p := by
  obtain ⟨p, hp, -⟩ := (hnl.mem_pinsOfNet .output).mp hid
  exact ⟨p, hp⟩

namespace Emit

open Netlist

variable {α β : Type} {r s : Run}

/-- Whether the action started in `r` stops, where it does, with a failure that `P` allows. -/
def Stops (P : Failure → Prop) (x : Emit α) (r : Run) : Prop := ∀ f s, x r = .error f s → P f

/-- Whether the action started in `r` does not come to a broken promise. -/
def Regular (x : Emit α) (r : Run) : Prop := ∀ f s, x r = .error f s → ∃ e, f = .error e

/-! ### How actions stop -/

section Stops

variable {P : Failure → Prop}

theorem Regular.stops {x : Emit α} (h : Regular x r) (hP : ∀ e, P (.error e)) : Stops P x r := by
  intro f s hx
  obtain ⟨e, rfl⟩ := h f s hx
  exact hP e

theorem Stops.bind {x : Emit α} {f : α → Emit β} (hx : Stops P x r)
    (hf : ∀ a s, x r = .ok a s → Stops P (f a) s) : Stops P (x >>= f) r := by
  intro failure s h
  change EStateM.bind x f r = .error failure s at h
  unfold EStateM.bind at h
  split at h
  · next a s' hax => exact hf a s' hax failure s h
  · next failure' s' hex =>
    cases h
    exact hx _ _ hex

/-- An action that is known to come to an answer first. -/
theorem stops_ok_bind {x : Emit α} {f : α → Emit β} {a : α} (hx : x r = .ok a s)
    (hf : Stops P (f a) s) : Stops P (x >>= f) r := by
  refine Stops.bind (fun _ _ herror => nomatch hx.symm.trans herror) ?_
  intro a' s' hok
  cases hx.symm.trans hok
  exact hf

theorem stops_demand {x : Except Fault α} (h : ∀ f, x = .error f → P (.fault f)) :
    Stops P (demand x) r := by
  intro failure s hx
  cases x with
  | ok a => exact nomatch hx
  | error f =>
    cases hx
    exact h f rfl

theorem stops_require {i : Invariant} {holds : Bool} (h : holds = false → P (.violated i)) :
    Stops P (require i holds) r := by
  intro failure s hx
  cases holds with
  | true => exact nomatch hx
  | false =>
    cases hx
    exact h rfl

end Stops

/-! ### How regular actions are built -/

theorem regular_of_ok {x : Emit α} {a : α} (h : x r = .ok a s) : Regular x r := by
  intro f s' hx
  cases h.symm.trans hx

theorem regular_pure (a : α) : Regular (pure a) r := regular_of_ok rfl

theorem regular_fail (e : EmitError) : Regular (fail e : Emit α) r := by
  intro f s h
  cases h
  exact ⟨e, rfl⟩

theorem regular_tell (e : Event) : Regular (tell e) r := regular_of_ok rfl

theorem regular_modifyReport (g : Report → Report) : Regular (modifyReport g) r := regular_of_ok rfl

theorem Regular.bind {x : Emit α} {f : α → Emit β} (hx : Regular x r)
    (hf : ∀ a s, x r = .ok a s → Regular (f a) s) : Regular (x >>= f) r := Stops.bind hx hf

theorem ask_eq_ok {query : Netlist → Except Fault α} {a : α} (h : query r.netlist = .ok a) :
    ask query r = .ok a r := by
  change demand (query r.netlist) r = .ok a r
  rw [h]
  rfl

theorem stops_ask_bind {P : Failure → Prop} {query : Netlist → Except Fault α} {f : α → Emit β}
    {a : α} (h : query r.netlist = .ok a) (hf : Stops P (f a) r) : Stops P (ask query >>= f) r :=
  stops_ok_bind (ask_eq_ok h) hf

theorem regular_ask_bind {query : Netlist → Except Fault α} {f : α → Emit β} {a : α}
    (h : query r.netlist = .ok a) (hf : Regular (f a) r) : Regular (ask query >>= f) r :=
  stops_ask_bind h hf

/-! ### Resolving -/

theorem regular_liveNet? (hnl : r.netlist.CrossReferenced) {id : PinId} {p : Pin}
    (hp : r.netlist.pins[id]? = some p) : Regular (liveNet? p) r := by
  unfold liveNet?
  cases hnet : p.net with
  | none => exact regular_pure none
  | some w =>
    have hn := Array.getElem?_eq_getElem (hnl.net_of_pin hp hnet)
    exact regular_ask_bind (net_eq_ok_iff.mpr hn) (regular_pure _)

theorem regular_tieToGround (hnl : r.netlist.Wired) {id : PinId} {p : Pin}
    (hp : r.netlist.pins[id]? = some p) (hinput : p.direction = .input) (node : String) :
    Regular (tieToGround id node) r := by
  obtain ⟨label, hlabel⟩ := hnl.exists_pinLabel hp
  have hground : groundNet < r.netlist.nets.size := Nat.lt_of_lt_of_le (by decide) hnl.constants
  have hconnect : r.netlist.connectSink groundNet id = .ok (r.netlist.connect groundNet id) :=
    connectAs_eq_ok_iff.mpr ⟨⟨p, hp, hinput⟩, hground, rfl⟩
  unfold tieToGround
  refine regular_ask_bind hlabel ((regular_tell _).bind ?_)
  intro _ s hs
  cases hs
  refine (regular_modifyReport _).bind ?_
  intro _ s hs
  cases hs
  exact regular_ask_bind hconnect (regular_of_ok rfl)

theorem regular_soleDriver (hnl : r.netlist.CrossReferenced) {id : PinId} {p : Pin}
    (hp : r.netlist.pins[id]? = some p) {net : NetId} (hnet : net < r.netlist.nets.size)
    (node : String) (padded : Bool) : Regular (soleDriver id node net padded) r := by
  have hn := Array.getElem?_eq_getElem hnet
  generalize r.netlist.nets[net] = n at hn
  have hdrivers : r.netlist.drivers net = n.drivers := by
    simp [drivers, pinsOfNet, hn, Net.pins]
  obtain ⟨label, hlabel⟩ := hnl.exists_pinLabel hp
  unfold soleDriver
  refine regular_ask_bind (net_eq_ok_iff.mpr hn) ?_
  rcases hlist : n.drivers with _ | ⟨driver, _ | ⟨other, rest⟩⟩
  · exact regular_fail _
  · have hdriver : driver ∈ r.netlist.drivers net := by simp [hdrivers, hlist]
    obtain ⟨q, hq⟩ := hnl.pin_of_driver hdriver
    obtain ⟨name, hname⟩ := hnl.exists_driverName hq
    obtain ⟨owner, howner⟩ := hnl.node_of_pin hq
    refine regular_ask_bind hname (regular_ask_bind (a := owner) ?_ (regular_pure _))
    exact bind_eq_ok_iff.mpr ⟨q, pin_eq_ok_iff.mpr hq, node_eq_ok_iff.mpr howner⟩
  · exact regular_ask_bind hlabel (regular_fail _)

/-- An input pin of a wired netlist has a driver, or leads to an error of the circuit. -/
theorem regular_resolve (hnl : r.netlist.Wired) {id : PinId} {p : Pin}
    (hp : r.netlist.pins[id]? = some p) (hinput : p.direction = .input) :
    Regular (resolve id) r := by
  have hground : groundNet < r.netlist.nets.size := Nat.lt_of_lt_of_le (by decide) hnl.constants
  obtain ⟨n, hn⟩ := hnl.node_of_pin hp
  unfold resolve
  refine regular_ask_bind (pin_eq_ok_iff.mpr hp) (regular_ask_bind (node_eq_ok_iff.mpr hn) ?_)
  apply (regular_liveNet? hnl.toCrossReferenced hp).bind
  intro live s hlive
  obtain ⟨rfl, hlive⟩ := (liveNet?_ends p).of_ok hlive
  cases live with
  | none =>
    apply (regular_tieToGround hnl hp hinput n.name).bind
    intro _ s' htie
    obtain ⟨-, hnetlist, -, -⟩ := (tieToGround_ends id n.name).of_ok htie
    have hnl' : s'.netlist.Wired := hnetlist ▸ hnl.connect hground id
    have hp' : s'.netlist.pins[id]? = some { p with net := some groundNet } := by
      rw [hnetlist, getElem?_pins_connect, if_pos rfl, hp]
      rfl
    exact regular_soleDriver hnl'.toCrossReferenced hp'
      (Nat.lt_of_lt_of_le (by decide) hnl'.constants) _ _
  | some w =>
    have hw : p.net = some w := by
      split at hlive
      · cases hlive
      · exact hlive.symm
    exact regular_soleDriver hnl.toCrossReferenced hp (hnl.net_of_pin hp hw) _ _

end Emit

end CircuitLowering
