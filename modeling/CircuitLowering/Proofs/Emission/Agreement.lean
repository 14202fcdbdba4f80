import CircuitLowering.Proofs.Emission.Regular
import CircuitLowering.Proofs.Emission.Settled

/-!
# Actions that cannot tell two runs apart

Two runs stand alike when their netlists read alike: what is tied to ground in the one may still be
open in the other.  `Emit.Agrees` compares an action in one run with an action in another one that
stands alike: both answer alike, or both stop at the same failure, and they read the same pins, so that
the runs stand alike again.  The rules put longer actions together from shorter ones, as those of
`Emit.Ends` do for a single run.  `Emit.emitBlif_agrees` and `Emit.emitCell_agrees` say that the writers
treat a node alike in both runs.
-/

namespace CircuitLowering

open Netlist

/-! ### Runs that stand alike -/

/-- How a run stands after an action that read the pins `ids`: the pins are settled, and models that
are referenced now and were not before are models of hard blocks. -/
structure Run.Follows (r : Run) (ids : List PinId) (s : Run) : Prop extends r.Settles ids s where
  referenced : ∀ model ∈ s.report.referencedModels,
    model ∈ r.report.referencedModels ∨ model ∈ Emit.hardBlockModels r.netlist

theorem Run.Follows.trans {r s t : Run} {ids ids' : List PinId} (h : r.Follows ids s)
    (h' : s.Follows ids' t) : r.Follows (ids ++ ids') t where
  toSettles := h.toSettles.trans h'.toSettles
  referenced model hmodel := by
    rcases h'.referenced model hmodel with hbefore | hblock
    · exact h.referenced model hbefore
    · have hmodels : Emit.hardBlockModels s.netlist = Emit.hardBlockModels r.netlist := by
        rw [Emit.hardBlockModels, h.nodes, Emit.hardBlockModels]
      exact Or.inr (hmodels ▸ hblock)

/-- A run that differs in its log and counts alone follows. -/
theorem Run.follows_nil {r s : Run} (hnetlist : s.netlist = r.netlist)
    (hdiagnostics : s.report.diagnostics = r.report.diagnostics)
    (hreferenced : s.report.referencedModels = r.report.referencedModels) : r.Follows [] s where
  toSettles := Run.settles_nil hnetlist hdiagnostics
  referenced _ hmodel := Or.inl (hreferenced ▸ hmodel)

structure Run.Alike (mark : UInt16) (r r' : Run) : Prop where
  settled : r'.netlist.settled = r.netlist.settled
  wired : r.netlist.Wired
  wired' : r'.netlist.Wired
  prepared : r.netlist.Prepared mark
  prepared' : r'.netlist.Prepared mark

/-- Whether two runs go on, from `r` to `s` and from `r'` to `s'`, by reading the same pins, all of
them among `pins`. -/
def Run.Together (pins : PinId → Prop) (r r' s s' : Run) : Prop :=
  ∃ ids, (∀ id ∈ ids, pins id) ∧ r.Follows ids s ∧ r'.Follows ids s'

section Together

variable {mark : UInt16} {pins pins' : PinId → Prop} {r r' s s' t t' : Run}

theorem Run.Together.trans (h : r.Together pins r' s s') (h' : s.Together pins s' t t') :
    r.Together pins r' t t' := by
  obtain ⟨ids, hids, hs, hs'⟩ := h
  obtain ⟨ids', hids', ht, ht'⟩ := h'
  refine ⟨ids ++ ids', ?_, hs.trans ht, hs'.trans ht'⟩
  intro id hid
  exact (List.mem_append.mp hid).elim (hids id) (hids' id)

theorem Run.Together.mono (hpins : ∀ id, pins id → pins' id) (h : r.Together pins r' s s') :
    r.Together pins' r' s s' := by
  obtain ⟨ids, hids, hs, hs'⟩ := h
  exact ⟨ids, fun id hid => hpins id (hids id hid), hs, hs'⟩

theorem Run.Together.nodes (h : r.Together pins r' s s') : s.netlist.nodes = r.netlist.nodes := by
  obtain ⟨ids, -, hs, -⟩ := h
  exact hs.nodes

theorem Run.Together.nodes' (h : r.Together pins r' s s') : s'.netlist.nodes = r'.netlist.nodes := by
  obtain ⟨ids, -, -, hs'⟩ := h
  exact hs'.nodes

theorem Run.together_nil (hs : r.Follows [] s) (hs' : r'.Follows [] s') : r.Together pins r' s s' :=
  ⟨[], fun _ hid => absurd hid List.not_mem_nil, hs, hs'⟩

theorem Run.together_refl (pins : PinId → Prop) (r r' : Run) : r.Together pins r' r r' :=
  Run.together_nil (Run.follows_nil rfl rfl rfl) (Run.follows_nil rfl rfl rfl)

theorem Run.Alike.after (h : r.Alike mark r') (hs : r.Together pins r' s s') : s.Alike mark s' := by
  obtain ⟨ids, -, hs, hs'⟩ := hs
  constructor
  · rw [hs.netlist, hs'.netlist, settled_tieAll, settled_tieAll, h.settled]
  · exact hs.netlist ▸ h.wired.tieAll ids
  · exact hs'.netlist ▸ h.wired'.tieAll ids
  · exact hs.netlist ▸ h.prepared.tieAll ids
  · exact hs'.netlist ▸ h.prepared'.tieAll ids

end Together

namespace Emit

variable {α β α' β' : Type} {mark : UInt16} {pins : PinId → Prop} {r r' : Run}
  {same : α → β → Prop} {same' : α' → β' → Prop}

/-- Whether two ends are alike: answers that are `same`, or one failure. -/
def Matches (pins : PinId → Prop) (r r' : Run) (same : α → β → Prop) :
    EStateM.Result Failure Run α → EStateM.Result Failure Run β → Prop
  | .ok a s, .ok b s' => same a b ∧ r.Together pins r' s s'
  | .error f s, .error f' s' => f = f' ∧ r.Together pins r' s s'
  | _, _ => False

/-- Whether the action `x` in the run `r` and the action `y` in `r'` end alike, provided that the runs
stand alike. -/
def Agrees (mark : UInt16) (pins : PinId → Prop) (x : Emit α) (r : Run) (y : Emit β) (r' : Run)
    (same : α → β → Prop) : Prop :=
  r.Alike mark r' → Matches pins r r' same (x r) (y r')

/-! ### How an action ends for its caller -/

theorem Matches.answer_eq {x y : Emit α} {s s' : Run}
    (h : Matches pins s s' Eq (x r) (y r')) :
    answer x r = answer y r' ∧ s.Together pins s' (final x r) (final y r') := by
  unfold answer final
  cases hx : x r with
  | ok a t =>
    cases hy : y r' with
    | ok b t' =>
      rw [hx, hy] at h
      exact ⟨congrArg Except.ok h.1, h.2⟩
    | error f t' =>
      rw [hx, hy] at h
      exact h.elim
  | error f t =>
    cases hy : y r' with
    | ok b t' =>
      rw [hx, hy] at h
      exact h.elim
    | error f' t' =>
      rw [hx, hy] at h
      exact ⟨congrArg Except.error h.1, h.2⟩

/-! ### One action after the other -/

theorem Matches.mono {pins' : PinId → Prop} (hpins : ∀ id, pins id → pins' id)
    {e : EStateM.Result Failure Run α} {e' : EStateM.Result Failure Run β}
    (h : Matches pins r r' same e e') : Matches pins' r r' same e e' := by
  cases e with
  | ok a s =>
    cases e' with
    | ok b s' => exact ⟨h.1, h.2.mono hpins⟩
    | error f s' => exact h.elim
  | error f s =>
    cases e' with
    | ok b s' => exact h.elim
    | error f' s' => exact ⟨h.1, h.2.mono hpins⟩

theorem Agrees.mono {pins' : PinId → Prop} (hpins : ∀ id, pins id → pins' id) {x : Emit α}
    {y : Emit β} (h : Agrees mark pins x r y r' same) : Agrees mark pins' x r y r' same :=
  fun halike => (h halike).mono hpins

theorem Agrees.bind {x : Emit α} {y : Emit β} {f : α → Emit α'} {g : β → Emit β'}
    (hx : Agrees mark pins x r y r' same)
    (hf : ∀ a b s s', x r = .ok a s → y r' = .ok b s' → same a b → r.Together pins r' s s' →
      Agrees mark pins (f a) s (g b) s' same') :
    Agrees mark pins (x >>= f) r (y >>= g) r' same' := by
  intro halike
  have hends := hx halike
  change Matches pins r r' same' (EStateM.bind x f r) (EStateM.bind y g r')
  unfold EStateM.bind
  cases hxr : x r with
  | ok a s =>
    cases hyr : y r' with
    | ok b s' =>
      rw [hxr, hyr] at hends
      obtain ⟨hsame, hs⟩ := hends
      have hrest := hf a b s s' hxr hyr hsame hs (halike.after hs)
      dsimp only
      -- the pins that the second action reads come after those of the first
      cases hfs : f a s with
      | ok a' t =>
        cases hgs : g b s' with
        | ok b' t' =>
          rw [hfs, hgs] at hrest
          exact ⟨hrest.1, hs.trans hrest.2⟩
        | error e t' =>
          rw [hfs, hgs] at hrest
          exact hrest.elim
      | error e t =>
        cases hgs : g b s' with
        | ok b' t' =>
          rw [hfs, hgs] at hrest
          exact hrest.elim
        | error e' t' =>
          rw [hfs, hgs] at hrest
          exact ⟨hrest.1, hs.trans hrest.2⟩
    | error e s' =>
      rw [hxr, hyr] at hends
      exact hends.elim
  | error e s =>
    cases hyr : y r' with
    | ok b s' =>
      rw [hxr, hyr] at hends
      exact hends.elim
    | error e' s' =>
      rw [hxr, hyr] at hends
      exact hends

/-- Actions that stop leave nothing to what comes after them. -/
theorem Agrees.stop_bind {x : Emit α} {y : Emit β} (h : Agrees mark pins x r y r' fun _ _ => False)
    {f : α → Emit α'} {g : β → Emit β'} : Agrees mark pins (x >>= f) r (y >>= g) r' same' :=
  h.bind fun _ _ _ _ _ _ hfalse _ => hfalse.elim

/-! ### Single actions -/

theorem agrees_pure {a : α} {b : β} (h : same a b) : Agrees mark pins (pure a) r (pure b) r' same :=
  fun _ => ⟨h, Run.together_refl pins r r'⟩

theorem agrees_throw (f : Failure) :
    Agrees mark pins (throw f : Emit α) r (throw f : Emit β) r' same :=
  fun _ => ⟨rfl, Run.together_refl pins r r'⟩

theorem agrees_fail (e : EmitError) :
    Agrees mark pins (fail e : Emit α) r (fail e : Emit β) r' same := agrees_throw (.error e)

theorem agrees_demand (x : Except Fault α) : Agrees mark pins (demand x) r (demand x) r' Eq := by
  cases x with
  | ok a => exact agrees_pure rfl
  | error f => exact agrees_throw (.fault f)

/-- An action that leaves its run as it is. -/
theorem agrees_ok_bind {x : Emit α} {y : Emit β} {a : α} {b : β} (hx : x r = .ok a r)
    (hy : y r' = .ok b r') {f : α → Emit α'} {g : β → Emit β'}
    (hf : Agrees mark pins (f a) r (g b) r' same') :
    Agrees mark pins (x >>= f) r (y >>= g) r' same' := by
  have hfirst : Agrees mark pins x r y r' fun a' b' => a' = a ∧ b' = b := by
    intro _
    rw [hx, hy]
    exact ⟨⟨rfl, rfl⟩, Run.together_refl pins r r'⟩
  refine hfirst.bind ?_
  intro a' b' s s' hxs hys hsame _
  obtain ⟨rfl, rfl⟩ := hsame
  cases hx.symm.trans hxs
  cases hy.symm.trans hys
  exact hf

theorem ask_eq_error {query : Netlist → Except Fault α} {f : Fault}
    (h : query r.netlist = .error f) : ask query r = .error (.fault f) r := by
  change demand (query r.netlist) r = .error (.fault f) r
  rw [h]
  rfl

/-- A question that both netlists answer alike, as far as `view` tells. -/
theorem agrees_view_bind {γ : Type} (view : α → γ) {query : Netlist → Except Fault α}
    {f : α → Emit α'} {g : α → Emit β'}
    (hquery : r'.netlist.settled = r.netlist.settled →
      (query r'.netlist).map view = (query r.netlist).map view)
    (hf : ∀ a b, query r.netlist = .ok a → view b = view a →
      Agrees mark pins (f a) r (g b) r' same') :
    Agrees mark pins (ask query >>= f) r (ask query >>= g) r' same' := by
  intro halike
  have hsame := hquery halike.settled
  cases ha : query r.netlist with
  | ok a =>
    cases hb : query r'.netlist with
    | ok b =>
      rw [ha, hb] at hsame
      exact agrees_ok_bind (ask_eq_ok ha) (ask_eq_ok hb) (hf a b ha (Except.ok.inj hsame)) halike
    | error fault =>
      rw [ha, hb] at hsame
      exact nomatch hsame
  | error fault =>
    cases hb : query r'.netlist with
    | ok b =>
      rw [ha, hb] at hsame
      exact nomatch hsame
    | error fault' =>
      rw [ha, hb] at hsame
      have hstop : Agrees mark pins (ask query) r (ask query) r' fun _ _ => False := by
        intro _
        rw [ask_eq_error ha, ask_eq_error hb]
        exact ⟨congrArg Failure.fault (Except.error.inj hsame).symm, Run.together_refl pins r r'⟩
      exact hstop.stop_bind halike

/-- A question that both netlists answer with the same. -/
theorem agrees_ask_bind {query : Netlist → Except Fault α} {f : α → Emit α'} {g : α → Emit β'}
    (hquery : r'.netlist.settled = r.netlist.settled → query r'.netlist = query r.netlist)
    (hf : ∀ a, query r.netlist = .ok a → Agrees mark pins (f a) r (g a) r' same') :
    Agrees mark pins (ask query >>= f) r (ask query >>= g) r' same' := by
  refine agrees_view_bind (fun a => a) (fun h => by rw [hquery h]) fun a b ha hb => ?_
  subst hb
  exact hf b ha

theorem agrees_node_bind {id : NodeId} {f : Node → Emit α'} {g : Node → Emit β'}
    (hf : ∀ n, r.netlist.nodes[id]? = some n → Agrees mark pins (f n) r (g n) r' same') :
    Agrees mark pins (ask (·.node id) >>= f) r (ask (·.node id) >>= g) r' same' := by
  refine agrees_ask_bind (fun h => ?_) fun n hn => hf n (node_eq_ok_iff.mp hn)
  rw [node, nodes_of_settled h, node]

theorem agrees_require_bind {i : Invariant} {holds : Bool} {f : Unit → Emit α'} {g : Unit → Emit β'}
    (hf : Agrees mark pins (f ()) r (g ()) r' same') :
    Agrees mark pins (require i holds >>= f) r (require i holds >>= g) r' same' := by
  cases holds with
  | true => exact agrees_ok_bind rfl rfl hf
  | false =>
    have hstop : Agrees mark pins (require i false) r (require i false) r' fun _ _ => False :=
      fun _ => ⟨rfl, Run.together_refl pins r r'⟩
    exact hstop.stop_bind

theorem agrees_modify_bind {m m' : Run → Run} {f : Unit → Emit α'} {g : Unit → Emit β'}
    (hm : r.Follows [] (m r)) (hm' : r'.Follows [] (m' r'))
    (hf : Agrees mark pins (f ()) (m r) (g ()) (m' r') same') :
    Agrees mark pins (modify m >>= f) r (modify m' >>= g) r' same' := by
  have hfirst : Agrees mark pins (modify m : Emit Unit) r (modify m' : Emit Unit) r'
      fun _ _ => True := fun _ => ⟨trivial, Run.together_nil hm hm'⟩
  refine hfirst.bind ?_
  intro _ _ s s' hs hs' _ _
  cases hs
  cases hs'
  exact hf

section Silent

variable {f : Unit → Emit α'} {g : Unit → Emit β'}

theorem agrees_tell_bind {e e' : Event}
    (hf : Agrees mark pins (f ()) { r with log := r.log.push e } (g ())
      { r' with log := r'.log.push e' } same') :
    Agrees mark pins (tell e >>= f) r (tell e' >>= g) r' same' :=
  agrees_modify_bind (Run.follows_nil rfl rfl rfl) (Run.follows_nil rfl rfl rfl) hf

/-- What is told makes no difference to what follows. -/
theorem agrees_tell_bind_any {e e' : Event}
    (hf : ∀ s s' : Run, s.netlist = r.netlist → s.report = r.report → s'.netlist = r'.netlist →
      s'.report = r'.report → Agrees mark pins (f ()) s (g ()) s' same') :
    Agrees mark pins (tell e >>= f) r (tell e' >>= g) r' same' :=
  agrees_tell_bind (hf _ _ rfl rfl rfl rfl)

theorem agrees_tellAll_bind {es es' : List Event}
    (hf : Agrees mark pins (f ()) { r with log := r.log ++ es } (g ())
      { r' with log := r'.log ++ es' } same') :
    Agrees mark pins (tellAll es >>= f) r (tellAll es' >>= g) r' same' :=
  agrees_modify_bind (Run.follows_nil rfl rfl rfl) (Run.follows_nil rfl rfl rfl) hf

/-- A change of the report that keeps the diagnostics and references no model. -/
theorem agrees_modifyReport_bind {m : Report → Report}
    (hdiagnostics : ∀ report : Report, (m report).diagnostics = report.diagnostics)
    (hreferenced : ∀ report : Report, (m report).referencedModels = report.referencedModels)
    (hf : Agrees mark pins (f ()) { r with report := m r.report } (g ())
      { r' with report := m r'.report } same') :
    Agrees mark pins (modifyReport m >>= f) r (modifyReport m >>= g) r' same' :=
  agrees_modify_bind (Run.follows_nil rfl (hdiagnostics _) (hreferenced _))
    (Run.follows_nil rfl (hdiagnostics _) (hreferenced _)) hf

end Silent

end Emit

end CircuitLowering
