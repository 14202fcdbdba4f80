import CircuitLowering.Proofs.Emission.Repairs

/-!
# Actions that read pins

Most of a run is made of actions that read a list of pins, one after the other, and stop at the first
one that leads to an error.  `Emit.Reads` says this of an action, for a given list and a given error.
One after the other, two such actions read the pins of both, and stop at the error of the first one
or else at that of the second.  An action that reads no pin and does not stop is silent; it leaves the
list and the error as they are.
-/

namespace CircuitLowering

open Netlist

theorem findSome?_cons_or {α β : Type} (f : α → Option β) (a : α) (l : List α) :
    (a :: l).findSome? f = (f a).or (l.findSome? f) := by
  rw [List.findSome?_cons]
  cases f a <;> rfl

def Netlist.firstReadError? (nl : Netlist) (ids : List PinId) : Option EmitError :=
  ids.findSome? nl.readError?

theorem Netlist.firstReadError?_cons (nl : Netlist) (id : PinId) (ids : List PinId) :
    nl.firstReadError? (id :: ids) = (nl.readError? id).or (nl.firstReadError? ids) :=
  findSome?_cons_or nl.readError? id ids

@[simp] theorem Netlist.firstReadError?_tieAll (nl : Netlist) (ids ids' : List PinId) :
    (nl.tieAll ids').firstReadError? ids = nl.firstReadError? ids := by
  have hread : (nl.tieAll ids').readError? = nl.readError? :=
    funext fun id => nl.readError?_tieAll ids' id
  unfold firstReadError?
  rw [hread]

namespace Emit

variable {α β : Type} {r : Run} {error? error?' : Option EmitError} {ids ids' : List PinId}
  {done : α → Run → Prop} {done' : β → Run → Prop}

/-- Whether the action started in `r` reads the pins `ids`: it ends with an answer in `done` if there
is no error and with the error if there is one.  With an answer all pins are settled, with an error
some first ones of them. -/
def Reads (x : Emit α) (r : Run) (error? : Option EmitError) (ids : List PinId)
    (done : α → Run → Prop) : Prop :=
  Ends x r (fun a r' => error? = none ∧ r.Settles ids r' ∧ done a r')
    fun e r' => error? = some e ∧ ∃ first, first <+: ids ∧ r.Settles first r'

/-! ### One action after the other -/

theorem Reads.imp {x : Emit α} {done' : α → Run → Prop} (h : Reads x r error? ids done)
    (hdone : ∀ a r', r.Settles ids r' → done a r' → done' a r') : Reads x r error? ids done' := by
  refine Ends.imp h ?_ fun _ _ hfailed => hfailed
  intro a r' hend
  rcases hend with ⟨hnone, hsettles, ha⟩
  exact ⟨hnone, hsettles, hdone a r' hsettles ha⟩

theorem Reads.bind {x : Emit α} {f : α → Emit β} (hx : Reads x r error? ids done)
    (hf : ∀ a r', r.Settles ids r' → done a r' → Reads (f a) r' error?' ids' done') :
    Reads (x >>= f) r (error?.or error?') (ids ++ ids') done' := by
  refine Ends.bind (Ends.imp hx ?_ ?_)
  · intro a r' hend
    rcases hend with ⟨rfl, hsettles, ha⟩
    refine Ends.imp (hf a r' hsettles ha) ?_ ?_
    · intro b r'' hend
      rcases hend with ⟨hnone, hsettles', hb⟩
      exact ⟨hnone, hsettles.trans hsettles', hb⟩
    · intro e r'' hend
      rcases hend with ⟨hsome, first, hfirst, hsettles'⟩
      exact ⟨hsome, ids ++ first, (List.prefix_append_right_inj ids).mpr hfirst,
        hsettles.trans hsettles'⟩
  · intro e r' hend
    rcases hend with ⟨rfl, first, hfirst, hsettles⟩
    exact ⟨rfl, first, hfirst.trans (List.prefix_append ids ids'), hsettles⟩

/-- A silent action first. -/
theorem Reads.silent_bind {x : Emit α} {f : α → Emit β} (hx : Reads x r none [] done)
    (hf : ∀ a r', r.Settles [] r' → done a r' → Reads (f a) r' error? ids done') :
    Reads (x >>= f) r error? ids done' :=
  hx.bind hf

/-- An action last that reads no pin, but may stop. -/
theorem Reads.bind_check {x : Emit α} {f : α → Emit β} (hx : Reads x r error? ids done)
    (hf : ∀ a r', r.Settles ids r' → done a r' → Reads (f a) r' error?' [] done') :
    Reads (x >>= f) r (error?.or error?') ids done' := by
  simpa only [List.append_nil] using hx.bind hf

/-- A silent action last. -/
theorem Reads.bind_silent {x : Emit α} {f : α → Emit β} (hx : Reads x r error? ids done)
    (hf : ∀ a r', r.Settles ids r' → done a r' → Reads (f a) r' none [] done') :
    Reads (x >>= f) r error? ids done' := by
  simpa only [Option.or_none] using hx.bind_check hf

/-! ### Single actions -/

/-- An action is silent that changes neither the netlist nor the diagnostics and does not stop. -/
theorem reads_of_ends {x : Emit α}
    (h : Ends x r (fun a r' => r'.netlist = r.netlist ∧
      r'.report.diagnostics = r.report.diagnostics ∧ done a r') fun _ _ => False) :
    Reads x r none [] done := by
  refine Ends.imp h ?_ fun _ _ hfalse => hfalse.elim
  intro a r' hend
  rcases hend with ⟨hnetlist, hdiagnostics, ha⟩
  exact ⟨rfl, Run.settles_nil hnetlist hdiagnostics, ha⟩

theorem reads_pure {a : α} (h : done a r) : Reads (pure a) r none [] done :=
  reads_of_ends (ends_pure ⟨rfl, rfl, h⟩)

theorem reads_fail (e : EmitError) : Reads (fail e : Emit α) r (some e) ids done :=
  ends_fail ⟨rfl, [], List.nil_prefix, Run.settles_nil rfl rfl⟩

/-- Resolving reads the one pin that it is given. -/
theorem resolve_reads (id : PinId) :
    Reads (resolve id) r (r.netlist.readError? id) [id]
      fun _ r' => r'.report.tally = r.report.tally := by
  refine (resolve_ends id).imp ?_ ?_
  · intro d r' hend
    rcases hend with ⟨hreading, hsettles, htally⟩
    exact ⟨by rw [readError?, hreading], hsettles, htally⟩
  · intro e r' hend
    rcases hend with ⟨hreading, hsettles, -⟩
    exact ⟨by rw [readError?, hreading], [id], List.prefix_rfl, hsettles⟩

/-! ### Silent actions and what follows -/

section Silent

theorem reads_get_bind {f : Run → Emit β} (h : Reads (f r) r error? ids done') :
    Reads (get >>= f) r error? ids done' :=
  Ends.bind (ends_get h)

theorem reads_ask_bind {query : Netlist → Except Fault α} {f : α → Emit β}
    (h : ∀ a, query r.netlist = .ok a → Reads (f a) r error? ids done') :
    Reads (ask query >>= f) r error? ids done' :=
  Ends.bind (ends_ask h)

theorem reads_demand_bind {x : Except Fault α} {f : α → Emit β}
    (h : ∀ a, x = .ok a → Reads (f a) r error? ids done') :
    Reads (demand x >>= f) r error? ids done' :=
  Ends.bind (ends_demand h)

variable {f : Unit → Emit β}

theorem reads_require_bind {i : Invariant} {holds : Bool}
    (h : holds = true → Reads (f ()) r error? ids done') :
    Reads (require i holds >>= f) r error? ids done' :=
  Ends.bind (ends_require h)

theorem reads_tell_bind {e : Event}
    (h : Reads (f ()) { r with log := r.log.push e } error? ids done') :
    Reads (tell e >>= f) r error? ids done' := by
  have htell : Reads (tell e) r none [] fun _ r' => r' = { r with log := r.log.push e } :=
    reads_of_ends (ends_tell ⟨rfl, rfl, rfl⟩)
  refine htell.silent_bind ?_
  intro _ _ _ hend
  subst hend
  exact h

/-- What is told makes no difference to what follows. -/
theorem reads_tell_bind_any {e : Event}
    (h : ∀ r₀ : Run, r₀.netlist = r.netlist → r₀.report = r.report →
      Reads (f ()) r₀ error? ids done') : Reads (tell e >>= f) r error? ids done' :=
  reads_tell_bind (h _ rfl rfl)

theorem reads_tellAll_bind {es : List Event}
    (h : Reads (f ()) { r with log := r.log ++ es } error? ids done') :
    Reads (tellAll es >>= f) r error? ids done' := by
  have htell : Reads (tellAll es) r none [] fun _ r' => r' = { r with log := r.log ++ es } :=
    reads_of_ends (ends_tellAll ⟨rfl, rfl, rfl⟩)
  refine htell.silent_bind ?_
  intro _ _ _ hend
  subst hend
  exact h

theorem reads_modifyReport_bind {g : Report → Report}
    (hg : (g r.report).diagnostics = r.report.diagnostics)
    (h : Reads (f ()) { r with report := g r.report } error? ids done') :
    Reads (modifyReport g >>= f) r error? ids done' := by
  have hmodify : Reads (modifyReport g) r none [] fun _ r' => r' = { r with report := g r.report } :=
    reads_of_ends (ends_modifyReport ⟨rfl, hg, rfl⟩)
  refine hmodify.silent_bind ?_
  intro _ _ _ hend
  subst hend
  exact h

end Silent

end Emit

end CircuitLowering
