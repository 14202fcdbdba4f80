import CircuitLowering.Emission.Basic

/-!
# How actions end

An action of a run ends in one of three ways: with an answer, with an error of the circuit, or with
a broken promise.  `Emit.Ends` says what holds of the first two ends and leaves the third open, so
a statement about an action is one about its regular ends.  There is one rule for each way to build
an action; what a longer action does is put together from them.
-/

namespace CircuitLowering.Emit

variable {α β : Type} {r r' : Run} {done : α → Run → Prop} {failed : EmitError → Run → Prop}

/-- Whether the action started in `r` ends with an answer in `done`, with an error of the circuit
in `failed`, or with a broken promise. -/
def Ends (x : Emit α) (r : Run) (done : α → Run → Prop) (failed : EmitError → Run → Prop) : Prop :=
  match x r with
  | .ok a r' => done a r'
  | .error (.error e) r' => failed e r'
  | .error _ _ => True

/-! ### Using what is known of an end -/

theorem Ends.of_ok {x : Emit α} {a : α} (h : Ends x r done failed) (hx : x r = .ok a r') :
    done a r' := by
  simpa only [Ends, hx] using h

theorem Ends.of_error {x : Emit α} {e : EmitError} (h : Ends x r done failed)
    (hx : x r = .error (.error e) r') : failed e r' := by
  simpa only [Ends, hx] using h

theorem Ends.imp {x : Emit α} {done' : α → Run → Prop} {failed' : EmitError → Run → Prop}
    (h : Ends x r done failed) (hdone : ∀ a r', done a r' → done' a r')
    (hfailed : ∀ e r', failed e r' → failed' e r') : Ends x r done' failed' := by
  unfold Ends at h ⊢
  split at h
  · exact hdone _ _ h
  · exact hfailed _ _ h
  · trivial

theorem Ends.and {x : Emit α} {done' : α → Run → Prop} {failed' : EmitError → Run → Prop}
    (h : Ends x r done failed) (h' : Ends x r done' failed') :
    Ends x r (fun a s => done a s ∧ done' a s) fun e s => failed e s ∧ failed' e s := by
  unfold Ends at h h' ⊢
  rcases hx : x r with ⟨a, s⟩ | ⟨e | i | f, s⟩
  all_goals rw [hx] at h h'
  · exact ⟨h, h'⟩
  · exact ⟨h, h'⟩
  · trivial
  · trivial

theorem ends_of_ok {x : Emit α} {a : α} (hx : x r = .ok a r') (h : done a r') :
    Ends x r done failed := by
  unfold Ends
  rw [hx]
  exact h

/-- What holds after any answer holds in the end. -/
theorem ends_of_forall {x : Emit α} (h : ∀ a r', done a r') : Ends x r done fun _ _ => True := by
  unfold Ends
  split
  · exact h _ _
  · trivial
  · trivial

def answer (x : Emit α) (r : Run) : Except Failure α :=
  match x r with
  | .ok a _ => .ok a
  | .error f _ => .error f

def final (x : Emit α) (r : Run) : Run :=
  match x r with
  | .ok _ s => s
  | .error _ s => s

def succeeds (x : Emit α) (r : Run) : Bool :=
  match x r with
  | .ok _ _ => true
  | .error _ _ => false

theorem succeeds_iff {x : Emit α} : succeeds x r = true ↔ ∃ a r', x r = .ok a r' := by
  unfold succeeds
  constructor
  · intro h
    cases hx : x r with
    | ok a r' => exact ⟨a, r', rfl⟩
    | error e r' => simp [hx] at h
  · intro h
    rcases h with ⟨a, r', hx⟩
    rw [hx]

theorem exists_of_answer {f : α → β} {b : β} {x : Emit α}
    (h : (answer x r).toOption.map f = some b) : ∃ a r', x r = .ok a r' ∧ f a = b := by
  unfold answer at h
  cases hx : x r with
  | ok a r' =>
    rw [hx] at h
    exact ⟨a, r', rfl, Option.some.inj h⟩
  | error e r' =>
    rw [hx] at h
    cases h

theorem exists_of_answer_error {f : Failure} {x : Emit α} (h : answer x r = .error f) :
    ∃ r', x r = .error f r' := by
  unfold answer at h
  cases hx : x r with
  | ok a r' =>
    rw [hx] at h
    cases h
  | error f' r' =>
    rw [hx] at h
    cases h
    exact ⟨r', rfl⟩

theorem exists_of_succeeds {x : Emit α} {P : Run → Prop} (h : succeeds x r = true)
    (hfinal : P (final x r)) : ∃ a r', x r = .ok a r' ∧ P r' := by
  obtain ⟨a, r', hx⟩ := succeeds_iff.mp h
  rw [final, hx] at hfinal
  exact ⟨a, r', hx, hfinal⟩

/-! ### One action after the other -/

theorem Ends.bind {x : Emit α} {f : α → Emit β} {done : β → Run → Prop}
    (h : Ends x r (fun a r' => Ends (f a) r' done failed) failed) :
    Ends (x >>= f) r done failed := by
  change Ends (EStateM.bind x f) r done failed
  unfold Ends at h ⊢
  simp only [EStateM.bind]
  cases hx : x r with
  | ok a r' => simpa only [hx] using h
  | error e r' =>
    rw [hx] at h
    cases e with
    | error e => exact h
    | violated i => trivial
    | fault f => trivial

/-- What holds after the second action from any run holds in the end. -/
theorem ends_bind_any {x : Emit α} {f : α → Emit β} {done : β → Run → Prop}
    (h : ∀ a r', Ends (f a) r' done fun _ _ => True) : Ends (x >>= f) r done fun _ _ => True :=
  Ends.bind (ends_of_forall h)

/-! ### Single actions -/

theorem ends_pure {a : α} (h : done a r) : Ends (pure a) r done failed := h

theorem ends_get {done : Run → Run → Prop} (h : done r r) :
    Ends (get : Emit Run) r done failed := h

theorem ends_fail {e : EmitError} (h : failed e r) : Ends (fail e : Emit α) r done failed := h

theorem ends_fault {f : Fault} : Ends (throw (.fault f) : Emit α) r done failed := trivial

theorem ends_demand {x : Except Fault α} (h : ∀ a, x = .ok a → done a r) :
    Ends (demand x) r done failed := by
  cases x with
  | ok a => exact h a rfl
  | error f => trivial

theorem ends_ask {query : Netlist → Except Fault α}
    (h : ∀ a, query r.netlist = .ok a → done a r) : Ends (ask query) r done failed := by
  refine Ends.bind (ends_get ?_)
  exact ends_demand h

section Unit

variable {done : Unit → Run → Prop}

theorem ends_tell {e : Event} (h : done () { r with log := r.log.push e }) :
    Ends (tell e) r done failed := h

theorem ends_tellAll {es : List Event} (h : done () { r with log := r.log ++ es }) :
    Ends (tellAll es) r done failed := h

theorem ends_modifyNetlist {f : Netlist → Netlist}
    (h : done () { r with netlist := f r.netlist }) : Ends (modifyNetlist f) r done failed := h

theorem ends_modifyReport {f : Report → Report} (h : done () { r with report := f r.report }) :
    Ends (modifyReport f) r done failed := h

theorem ends_require {i : Invariant} {holds : Bool} (h : holds = true → done () r) :
    Ends (require i holds) r done failed := by
  cases holds with
  | true => exact h rfl
  | false => trivial

end Unit

/-- What holds after the second action from any run with the same netlist holds in the end. -/
theorem ends_tell_bind_any {e : Event} {f : Unit → Emit α}
    (h : ∀ r', r'.netlist = r.netlist → Ends (f ()) r' done failed) :
    Ends (tell e >>= f) r done failed :=
  Ends.bind (ends_tell (h _ rfl))

end CircuitLowering.Emit
