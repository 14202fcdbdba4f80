import CircuitLowering.Proofs.Emission.Aftermath
import CircuitLowering.Proofs.Emission.Circuits
import Mathlib.Logic.Function.Basic

/-!
# Writing a circuit more than once

A circuit can be written again and again, by any of the three writers, and each time in one of several
contexts that keep reports of their own.  `Session` is how things stand between the calls.  Every call
names outputs, sets marks and moves pins, also one that fails half way, but to a later call this makes
no difference: `Session.Continues` says that the netlist still reads like the one at the start, each
call keeps it, and so each call answers as if it were the first (`Session.answer_eq_first`).  Only the
diagnostics tell them apart: a pin is reported by the call that repairs it and by no later one.
-/

namespace CircuitLowering

open Netlist

/-! ### The three writers -/

inductive Writer where
  | blif
  | rtlil
  | json
deriving DecidableEq, Repr

namespace Writer

def write (c : Context) : Writer → Emit String
  | blif => Emit.writeBlif c
  | rtlil => Emit.writeRtlil c
  | json => Emit.writeJson c

theorem write_agrees (c : Context) (w : Writer) {r r' : Run} (hr : r.Tidy) (hr' : r'.Tidy) :
    Emit.Agrees c.config.traversalMark (fun _ => True) (w.write c) r (w.write c) r' Eq :=
  match w with
  | blif => Emit.writeBlif_agrees c hr hr'
  | rtlil => Emit.writeRtlil_agrees c hr hr'
  | json => Emit.writeJson_agrees c hr hr'

end Writer

/-- To name the outputs twice is to name them once. -/
theorem Run.prepare_prepare (r : Run) (mark : UInt16) :
    (r.prepare mark).prepare mark = r.prepare mark := by
  have hinstantiated := r.netlist.instantiated_instantiateAll mark
  rw [prepare, prepare, hinstantiated.instantiateAll_eq]

/-- A writer begins by naming the outputs, so it may as well find them named. -/
theorem Writer.write_prepare (c : Context) (w : Writer) (r : Run) :
    w.write c (r.prepare c.config.traversalMark) = w.write c r := by
  have hfirst {α : Type} (f : Unit → Emit α) :
      (Emit.modifyNetlist (·.instantiateAll c.config.traversalMark) >>= f)
          (r.prepare c.config.traversalMark)
        = (Emit.modifyNetlist (·.instantiateAll c.config.traversalMark) >>= f) r := by
    change f () ((r.prepare c.config.traversalMark).prepare c.config.traversalMark) = _
    rw [r.prepare_prepare]
    rfl
  have hdesign (f : Design → Emit String) :
      (Emit.buildDesign c >>= f) (r.prepare c.config.traversalMark) = (Emit.buildDesign c >>= f) r := by
    change EStateM.bind (Emit.buildDesign c) f _ = EStateM.bind (Emit.buildDesign c) f _
    have hbuild : Emit.buildDesign c (r.prepare c.config.traversalMark) = Emit.buildDesign c r :=
      hfirst _
    unfold EStateM.bind
    rw [hbuild]
  cases w with
  | blif => exact hfirst _
  | rtlil => exact hdesign _
  | json => exact hdesign _

/-! ### Sessions -/

/-- What is shared by calls that write one circuit: the netlist, and for each context its report. -/
structure Session where
  netlist : Netlist
  reports : Nat → Report := fun _ => {}
  log : Array Event := #[]

structure Call where
  context : Nat
  writer : Writer
deriving DecidableEq, Repr

namespace Session

variable (c : Context)

def run (s : Session) (context : Nat) : Run :=
  { netlist := s.netlist, report := s.reports context, log := s.log }

def answer (s : Session) (call : Call) : Except Failure String :=
  Emit.answer (call.writer.write c) (s.run call.context)

/-- The session as a call leaves it, also where it fails. -/
def after (s : Session) (call : Call) : Session :=
  let r := Emit.final (call.writer.write c) (s.run call.context)
  { netlist := r.netlist, reports := Function.update s.reports call.context r.report, log := r.log }

def afterAll (s : Session) (calls : List Call) : Session := calls.foldl (after c) s

/-- Whether a call moves a pin that has no driver to ground. -/
def Repairs (s : Session) (call : Call) (id : PinId) : Prop :=
  s.netlist.isUndriven id ∧ (s.after c call).netlist.netOf? id = some groundNet

/-- Whether a session can be one that began with the netlist `nl`: its netlist reads like that one,
and no model is referenced in it but those of hard blocks. -/
structure Continues (mark : UInt16) (nl : Netlist) (s : Session) : Prop where
  settled : (s.netlist.instantiateAll mark).settled = (nl.instantiateAll mark).settled
  wired : s.netlist.Wired
  tidy : ∀ context, ((s.run context).prepare mark).Tidy

variable {c} {mark : UInt16} {nl : Netlist} {s : Session}

theorem continues_start (hnl : nl.Wired) : Continues mark nl { netlist := nl } where
  settled := rfl
  wired := hnl
  tidy _ _ hmodel := absurd hmodel List.not_mem_nil

/-- A call in a session goes as the first call goes. -/
theorem Continues.goes_alike (h : s.Continues c.config.traversalMark nl) (hnl : nl.Wired)
    (call : Call) :
    s.answer c call = answer c { netlist := nl } call ∧
      ∃ ids, ((s.run call.context).prepare c.config.traversalMark).Follows ids
        (Emit.final (call.writer.write c) (s.run call.context)) := by
  have hstart : Continues c.config.traversalMark nl { netlist := nl } := continues_start hnl
  have halike : ((s.run call.context).prepare c.config.traversalMark).Alike c.config.traversalMark
      ((run { netlist := nl } call.context).prepare c.config.traversalMark) :=
    ⟨h.settled.symm, h.wired.of_graph (graph_instantiateAll _ _),
      hnl.of_graph (graph_instantiateAll _ _), h.wired.prepared _, hnl.prepared _⟩
  have hmatches := call.writer.write_agrees c (h.tidy call.context) (hstart.tidy call.context) halike
  rw [Writer.write_prepare, Writer.write_prepare] at hmatches
  obtain ⟨hanswer, ids, -, hfollows, -⟩ := Emit.Matches.answer_eq hmatches
  exact ⟨hanswer, ids, hfollows⟩

/-- A call leaves the session so that it can go on. -/
theorem Continues.after (h : s.Continues c.config.traversalMark nl) (hnl : nl.Wired) (call : Call) :
    (s.after c call).Continues c.config.traversalMark nl := by
  obtain ⟨-, ids, hfollows⟩ := h.goes_alike hnl call
  have hnetlist : (s.after c call).netlist
      = (s.netlist.instantiateAll c.config.traversalMark).tieAll ids := hfollows.netlist
  have hprepared : (s.after c call).netlist.Prepared c.config.traversalMark := by
    rw [hnetlist]
    exact (h.wired.prepared _).tieAll ids
  have heq : (s.after c call).netlist.instantiateAll c.config.traversalMark
      = (s.after c call).netlist := hprepared.instantiated.instantiateAll_eq
  refine ⟨?_, ?_, ?_⟩
  · rw [heq, hnetlist, settled_tieAll, h.settled]
  · rw [hnetlist]
    exact (h.wired.of_graph (graph_instantiateAll _ _)).tieAll ids
  · intro context model hmodel
    change model ∈ Emit.hardBlockModels ((s.after c call).netlist.instantiateAll _)
    have hmodels : Emit.hardBlockModels (s.after c call).netlist
        = Emit.hardBlockModels (s.netlist.instantiateAll c.config.traversalMark) := by
      apply Emit.hardBlockModels_of_nodes
      rw [hnetlist, nodes_tieAll]
    rw [heq, hmodels]
    change model ∈ (Function.update s.reports _ _ context).referencedModels at hmodel
    by_cases hcontext : context = call.context
    · subst hcontext
      rw [Function.update_self] at hmodel
      exact (hfollows.referenced model hmodel).elim (h.tidy call.context model) id
    · rw [Function.update_of_ne hcontext] at hmodel
      exact h.tidy context model hmodel

theorem Continues.afterAll (h : s.Continues c.config.traversalMark nl) (hnl : nl.Wired)
    (calls : List Call) : (s.afterAll c calls).Continues c.config.traversalMark nl := by
  induction calls generalizing s with
  | nil => exact h
  | cons call calls ih => exact ih (h.after hnl call)

/-! ### What a call reports -/

/-- The diagnostics that a call adds are those of the pins that it repairs. -/
theorem Continues.reported (h : s.Continues c.config.traversalMark nl) (hnl : nl.Wired)
    (call : Call) :
    ∃ ids : List PinId, ((s.after c call).reports call.context).diagnostics
        = (s.reports call.context).diagnostics ++ ids.map nl.diagnostic ∧
      ∀ id ∈ ids, s.Repairs c call id := by
  obtain ⟨-, ids, hfollows⟩ := h.goes_alike hnl call
  have hgraph := s.netlist.graph_instantiateAll c.config.traversalMark
  refine ⟨(s.netlist.instantiateAll c.config.traversalMark).repaired ids, ?_, ?_⟩
  · change (Function.update s.reports _ _ call.context).diagnostics = _
    rw [Function.update_self, hfollows.diagnostics]
    refine congrArg _ (List.map_congr_left fun id hid => ?_)
    -- a pin that is repaired is an input pin, whose name is not touched
    obtain ⟨-, hundriven⟩ := List.mem_filter.mp hid
    change (s.netlist.instantiateAll c.config.traversalMark).isUndriven id = true at hundriven
    obtain ⟨p, hp, hinput, -⟩ := isUndriven_iff.mp hundriven
    have hlabel : (s.netlist.instantiateAll c.config.traversalMark).diagnostic id
        = (nl.instantiateAll c.config.traversalMark).diagnostic id := diagnostic_of_settled h.settled id
    have hdirection := (direction_of_settled h.settled id).trans
      (map_pins_of_graph (nl.graph_instantiateAll c.config.traversalMark) (·.direction)
        (fun _ => rfl) id)
    rw [hp, Option.map_some, hinput, eq_comm, Option.map_eq_some_iff] at hdirection
    obtain ⟨q, hq, hqinput⟩ := hdirection
    exact hlabel.trans (hnl.diagnostic_instantiateAll hq hqinput _)
  · intro id hid
    obtain ⟨-, hundriven⟩ := List.mem_filter.mp hid
    refine ⟨?_, ?_⟩
    · rwa [isUndriven_of_graph hgraph] at hundriven
    · change (Emit.final _ _).netlist.netOf? id = some groundNet
      rw [hfollows.netlist, netOf?_tieAll, if_pos]
      exact hid

/-- A pin on ground stays there. -/
theorem Continues.grounded_after (h : s.Continues c.config.traversalMark nl) (hnl : nl.Wired)
    {id : PinId} (hid : s.netlist.netOf? id = some groundNet) (call : Call) :
    (s.after c call).netlist.netOf? id = some groundNet := by
  obtain ⟨-, ids, hfollows⟩ := h.goes_alike hnl call
  change (Emit.final _ _).netlist.netOf? id = some groundNet
  rw [hfollows.netlist, netOf?_tieAll]
  split
  · rfl
  · exact (netOf?_of_graph (graph_instantiateAll _ _) id).trans hid

theorem Continues.grounded_afterAll (h : s.Continues c.config.traversalMark nl) (hnl : nl.Wired)
    {id : PinId} (hid : s.netlist.netOf? id = some groundNet) (calls : List Call) :
    (s.afterAll c calls).netlist.netOf? id = some groundNet := by
  induction calls generalizing s with
  | nil => exact hid
  | cons call calls ih => exact ih (h.after hnl call) (h.grounded_after hnl hid call)

/-- A pin on ground is not repaired. -/
theorem not_repairs_of_grounded {id : PinId} (hid : s.netlist.netOf? id = some groundNet)
    (call : Call) : ¬ s.Repairs c call id := by
  intro h
  obtain ⟨p, hp, -, hnets⟩ := isUndriven_iff.mp h.1
  rw [netOf?, hp, Option.bind_some] at hid
  exact absurd (hnets groundNet hid).2 (by decide)

/-- Whatever calls came before, in whatever contexts and however they ended, a call of a writer
answers with the text or the failure with which it answers where nothing was written before.  All that
it reports is which pins it repairs, and none of them was repaired by a call before it. -/
theorem answer_eq_first (c : Context) {nl : Netlist} (hnl : nl.Wired) (calls : List Call)
    (call : Call) :
    let s := afterAll c { netlist := nl } calls
    s.answer c call = answer c { netlist := nl } call ∧
      ∃ ids : List PinId, ((s.after c call).reports call.context).diagnostics
          = (s.reports call.context).diagnostics ++ ids.map nl.diagnostic ∧
        ∀ id ∈ ids, s.Repairs c call id ∧
          ∀ before earlier rest, calls = before ++ earlier :: rest →
            ¬ (afterAll c { netlist := nl } before).Repairs c earlier id := by
  intro s
  have hstart : Continues c.config.traversalMark nl { netlist := nl } := continues_start hnl
  have hs : s.Continues c.config.traversalMark nl := hstart.afterAll hnl calls
  obtain ⟨ids, hreported, hrepairs⟩ := hs.reported hnl call
  refine ⟨(hs.goes_alike hnl call).1, ids, hreported, fun id hid => ⟨hrepairs id hid, ?_⟩⟩
  intro before earlier rest hcalls hearlier
  have hbefore := (hstart.afterAll hnl before).after hnl earlier
  have hsplit : s = ((afterAll c { netlist := nl } before).after c earlier).afterAll c rest := by
    simp only [s, hcalls, afterAll, List.foldl_append, List.foldl_cons]
  have hgrounded := hbefore.grounded_afterAll hnl hearlier.2 rest
  rw [← hsplit] at hgrounded
  exact not_repairs_of_grounded hgrounded call (hrepairs id hid)

/-- A text in a second context, after a design was written in the first one. -/
theorem answer_eq_first_openCircuit :
    openCircuit.Wired ∧
      ∃ text, (afterAll {} { netlist := openCircuit } [⟨0, .json⟩]).answer {} ⟨1, .blif⟩ = .ok text ∧
        answer {} { netlist := openCircuit } ⟨1, .blif⟩ = .ok text := by
  have hnl : openCircuit.Wired := ⟨crossReferenced_openCircuit, by decide +kernel⟩
  have hwritten : Emit.succeeds (Writer.blif.write {}) (run { netlist := openCircuit } 1) = true := by
    decide +kernel
  obtain ⟨text, r', h⟩ := Emit.succeeds_iff.mp hwritten
  have hfirst : answer {} { netlist := openCircuit } ⟨1, .blif⟩ = .ok text := by
    change Emit.answer (Writer.blif.write {}) (run { netlist := openCircuit } 1) = .ok text
    rw [Emit.answer, h]
  have hanswer := (answer_eq_first {} hnl [⟨0, .json⟩] ⟨1, .blif⟩).1
  exact ⟨hnl, text, hanswer.trans hfirst, hfirst⟩

end Session

end CircuitLowering
