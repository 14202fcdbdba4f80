import CircuitLowering.Proofs.Circuit.Growth
import Mathlib.Data.List.Forall2

/-!
# Nodes as they were declared

A node gets its ports one after the other, and each port brings its pins.  `Builder.AddsPort` is what
one port adds, and `Builder.HoldsPorts` says that one side of a node consists of given ports, in their
order, with all pins assigned.  A node that is added holds what was declared of it
(`Builder.HoldsNode`), and what is added later does not touch it (`Builder.Labelled.addNodes`).
-/

namespace CircuitLowering

open Netlist

/-- What one list has at an index is related to what the other has there. -/
theorem exists_of_forall₂ {α β : Type} {R : α → β → Prop} {as : List α} {bs : List β}
    (h : List.Forall₂ R as bs) {i : Nat} {b : β} (hb : bs[i]? = some b) :
    ∃ a, as[i]? = some a ∧ R a b := by
  induction h generalizing i with
  | nil => cases hb
  | @cons a _ _ _ hhead _ ih =>
    cases i with
    | zero =>
      cases hb
      exact ⟨a, rfl, hhead⟩
    | succ i => exact ih hb

def NodeDeclaration.ports (decl : NodeDeclaration) : Direction → List PortBinding
  | .input => decl.inputs
  | .output => decl.outputs

namespace Builder

section Growing

variable {old : NodeId → Prop} {n : Nat} {b b₁ : Builder}

/-! ### Ports -/

structure AddsPort (id : NodeId) (d : Direction) (port : PortBinding) (b b' : Builder) : Prop where
  grown : Extends (· ≠ id) 0 b b'
  labelled : b'.Labelled
  added : ∃ ids, List.Forall₂ (b'.Assigned id port.mapping d) ids port.nets ∧
    (∀ d', b'.netlist.pinsOfNode id d' =
      if d' = d then b.netlist.pinsOfNode id d' ++ ids else b.netlist.pinsOfNode id d') ∧
    ∀ d', b'.netlist.sizesOfNode id d' =
      if d' = d then b.netlist.sizesOfNode id d' ++ [ids.length] else b.netlist.sizesOfNode id d'
  /-- A pin was there before, or is one of the port. -/
  pins : ∀ (pin : PinId) (p : Pin), b'.netlist.pins[pin]? = some p →
    b.netlist.pins[pin]? = some p ∨ ∃ name?, b'.Assigned id port.mapping d pin name?

/-- The ports of one side of a node, each with its pins assigned. -/
def HoldsPorts (b : Builder) (id : NodeId) (d : Direction) (ports : List PortBinding) : Prop :=
  ∃ pins : List (List PinId), b.netlist.pinsOfNode id d = pins.flatten ∧
    b.netlist.sizesOfNode id d = pins.map List.length ∧
    List.Forall₂ (fun ids port => List.Forall₂ (b.Assigned id port.mapping d) ids port.nets) pins ports

section Ports

variable {id : NodeId} {d : Direction} {port : PortBinding} {ports : List PortBinding}

theorem Labelled.attachPort (hb : b.Labelled) (id : NodeId) (mapping : String) (size : Nat)
    (d : Direction) :
    Extends (· ≠ id) 0 b { b with netlist := (b.netlist.attachPort id mapping size d).2 } ∧
      Labelled { b with netlist := (b.netlist.attachPort id mapping size d).2 } := by
  have hpins := b.netlist.getElem?_pins_attachPort id mapping size d
  -- a pin with a net is one that was there before
  have hold (pin : PinId) (p : Pin) (hnet : p.net ≠ none)
      (hp : (b.netlist.attachPort id mapping size d).2.pins[pin]? = some p) :
      b.netlist.pins[pin]? = some p := by
    rw [hpins] at hp
    split at hp
    · exact hp
    · split at hp
      · cases hp
        exact absurd rfl hnet
      · cases hp
  constructor
  · refine ⟨fun _ _ h => h, fun _ _ h => h, ?_, ?_, ?_, ?_, ?_, ?_, rfl, rfl⟩
    · intro k name hk
      exact (nodeName?_attachPort b.netlist id mapping size d k).trans hk
    · intro pin p hp _
      exact (hpins pin).trans ((if_pos (Array.getElem?_eq_some_iff.mp hp).1).trans hp)
    · intro w _ pin p hp hnet
      exact hold pin p (by simp [hnet]) hp
    · exact Array.size_modify ..
    · intro k hk
      funext d'
      simp only [pinsOfNode, Netlist.attachPort, Array.getElem?_modify, if_neg (Ne.symm hk)]
    · intro k hk
      funext d'
      simp only [sizesOfNode, Netlist.attachPort, Array.getElem?_modify, if_neg (Ne.symm hk)]
  · refine ⟨hb.table, hb.constants, ?_⟩
    intro pin p w hp hnet
    exact hb.bounded pin p w (hold pin p (by simp [hnet]) hp) hnet

theorem addsPort_of_foldlM {f : Builder → PinId × Option String → Except CircuitError Builder}
    (hf : ∀ {b b' : Builder} {pin : PinId} {name? : Option String}, b.Labelled →
      b.netlist.pins[pin]? = some { mapping := port.mapping, direction := d, node := id } →
      f b (pin, name?) = .ok b' → Binds id port.mapping d pin name? b b')
    (hb : b.Labelled) (hid : id < b.netlist.nodes.size)
    (h : ((List.range' b.netlist.pins.size port.nets.length).zip port.nets).foldlM f
      { b with netlist := (b.netlist.attachPort id port.mapping port.nets.length d).2 } = .ok b₁) :
    AddsPort id d port b b₁ := by
  obtain ⟨hattached, hlabelled⟩ := hb.attachPort id port.mapping port.nets.length d
  have hfresh : ∀ pin ∈ List.range' b.netlist.pins.size port.nets.length,
      (b.netlist.attachPort id port.mapping port.nets.length d).2.pins[pin]? =
        some { mapping := port.mapping, direction := d, node := id } := by
    intro pin hpin
    obtain ⟨hle, hlt⟩ := List.mem_range'_1.mp hpin
    rw [getElem?_pins_attachPort, if_neg (Nat.not_lt.mpr hle), if_pos hlt]
  obtain ⟨hgrown, hlabelled₁, hassigned, hothers⟩ :=
    binds_foldlM hf (List.nodup_range' 1) List.length_range' hlabelled hfresh h
  refine ⟨hattached.trans (hgrown.mono fun _ _ => trivial), hlabelled₁, ⟨_, hassigned, ?_, ?_⟩, ?_⟩
  · intro d'
    rw [hgrown.pins id trivial]
    refine (pinsOfNode_attachPort _ id port.mapping port.nets.length d hid id d').trans ?_
    simp only [true_and]
  · intro d'
    rw [hgrown.sizes id trivial, List.length_range']
    refine (sizesOfNode_attachPort _ id port.mapping port.nets.length d hid id d').trans ?_
    simp only [true_and]
  · intro pin p hp
    by_cases hpin : pin ∈ List.range' b.netlist.pins.size port.nets.length
    · obtain ⟨i, hi⟩ := List.mem_iff_getElem?.mp hpin
      obtain ⟨name?, -, hname⟩ := exists_of_forall₂ (List.Forall₂.flip hassigned) hi
      exact .inr ⟨name?, hname⟩
    · rw [hothers pin hpin, getElem?_pins_attachPort] at hp
      split at hp
      · exact .inl hp
      · next hold =>
        rw [if_neg fun hnew => hpin (List.mem_range'_1.mpr ⟨Nat.not_lt.mp hold, hnew⟩)] at hp
        cases hp

theorem Labelled.addInputPort (hb : b.Labelled) (hid : id < b.netlist.nodes.size) {node : String}
    (h : addInputPort node id b port = .ok b₁) : AddsPort id .input port b b₁ := by
  obtain ⟨_, -, h⟩ := bind_eq_ok_iff.mp h
  refine addsPort_of_foldlM (f := fun b q => pure (b.bindInput q.1 q.2)) ?_ hb hid ?_
  · intro b b' pin name? hb hp h
    cases h
    exact hb.bindInput hp name?
  · rw [List.foldlM_pure]
    exact h

theorem Labelled.addOutputPort (hb : b.Labelled) (hid : id < b.netlist.nodes.size) {node : String}
    (h : addOutputPort node id b port = .ok b₁) : AddsPort id .output port b b₁ := by
  obtain ⟨_, -, h⟩ := bind_eq_ok_iff.mp h
  exact addsPort_of_foldlM (fun hb hp h => hb.bindOutput hp h) hb hid h

theorem HoldsPorts.extends (h : b.HoldsPorts id d ports) (hgrown : Extends old n b b₁)
    (hid : old id) : b₁.HoldsPorts id d ports := by
  obtain ⟨pins, hpins, hsizes, hassigned⟩ := h
  refine ⟨pins, ?_, ?_, ?_⟩
  · rw [hgrown.pins id hid]
    exact hpins
  · rw [hgrown.sizes id hid]
    exact hsizes
  · exact hassigned.imp fun _ _ hport => hport.imp fun _ _ h => h.extends hgrown

/-- A new port comes last on its side, and the other side stays. -/
theorem AddsPort.holdsPorts (h : AddsPort id d port b b₁) {d' : Direction}
    (hports : b.HoldsPorts id d' ports) :
    b₁.HoldsPorts id d' (if d' = d then ports ++ [port] else ports) := by
  obtain ⟨pins, hpins, hsizes, hassigned⟩ := hports
  obtain ⟨ids, hids, hpins₁, hsizes₁⟩ := h.added
  have hkept : List.Forall₂ (fun ids port => List.Forall₂ (b₁.Assigned id port.mapping d') ids port.nets)
      pins ports :=
    hassigned.imp fun _ _ hport => hport.imp fun _ _ hpin => hpin.extends h.grown
  unfold HoldsPorts
  rw [hpins₁, hsizes₁]
  by_cases hd : d' = d
  · subst hd
    refine ⟨pins ++ [ids], ?_, ?_, ?_⟩
    · simp [hpins]
    · simp [hsizes]
    · rw [if_pos rfl]
      exact List.rel_append hkept (.cons hids .nil)
  · rw [if_neg hd, if_neg hd, if_neg hd]
    exact ⟨pins, hpins, hsizes, hkept⟩

/-- Ports that are added one after the other come in their order. -/
theorem addsPorts_foldlM {f : Builder → PortBinding → Except CircuitError Builder}
    (hf : ∀ {b b' : Builder} {port : PortBinding}, b.Labelled → id < b.netlist.nodes.size →
      f b port = .ok b' → AddsPort id d port b b')
    (hb : b.Labelled) (hid : id < b.netlist.nodes.size) {more : List PortBinding}
    (h : more.foldlM f b = .ok b₁) :
    Extends (· ≠ id) 0 b b₁ ∧ b₁.Labelled ∧ ∀ d' ports, b.HoldsPorts id d' ports →
      b₁.HoldsPorts id d' (if d' = d then ports ++ more else ports) := by
  induction more generalizing b with
  | nil =>
    cases h
    refine ⟨extends_refl _ _, hb, ?_⟩
    intro d' ports hports
    simpa using hports
  | cons port more ih =>
    rw [List.foldlM_cons] at h
    obtain ⟨b', hfirst, hrest⟩ := bind_eq_ok_iff.mp h
    have hport := hf hb hid hfirst
    obtain ⟨hgrown, hlabelled, hports₁⟩ := ih hport.labelled (hport.grown.size ▸ hid) hrest
    refine ⟨hport.grown.trans hgrown, hlabelled, ?_⟩
    intro d' ports hports
    have hall := hports₁ d' _ (hport.holdsPorts hports)
    by_cases hd : d' = d
    · simpa [hd] using hall
    · simpa [hd] using hall

end Ports

/-! ### Nodes -/

section Nodes

theorem Labelled.addParam (hb : b.Labelled) {id : NodeId} {param : String × ParamDeclaration}
    (h : addParam id b param = .ok b₁) : Extends (fun _ => True) 0 b b₁ ∧ b₁.Labelled := by
  obtain ⟨value, -, h⟩ := bind_eq_ok_iff.mp h
  cases h
  have hgraph := b.netlist.graph_setParam id param.1 value
  refine ⟨⟨fun _ _ h => h, fun _ _ h => h, ?_, fun _ _ h _ => h, fun _ _ _ _ h _ => h, ?_, ?_, ?_, rfl,
    rfl⟩, ⟨hb.table, hb.constants, hb.bounded⟩⟩
  · intro k name hk
    exact (nodeName?_setParam b.netlist id param.1 value k).trans hk
  · exact Array.size_modify ..
  · intro k _
    have hpins : (b.netlist.setParam id param.1 value).pinsOfNode = b.netlist.pinsOfNode := by
      rw [← pinsOfNode_graph, hgraph, pinsOfNode_graph]
    exact congrFun hpins k
  · intro k _
    have hsizes : (b.netlist.setParam id param.1 value).sizesOfNode = b.netlist.sizesOfNode := by
      rw [← sizesOfNode_graph, hgraph, sizesOfNode_graph]
    exact congrFun hsizes k

theorem size_nodes_lt_addNode (nl : Netlist) (name : String) (kind : NodeKind) :
    nl.nodes.size < (nl.addNode name kind).2.nodes.size := by
  simp [Netlist.addNode]

theorem pinsOfNode_newNode (nl : Netlist) (name : String) (kind : NodeKind) (d : Direction) :
    (nl.addNode name kind).2.pinsOfNode nl.nodes.size d = [] := by
  rw [pinsOfNode_addNode, pinsOfNode, Array.getElem?_size]
  rfl

theorem Labelled.withNode (hb : b.Labelled) (name : String) (kind : NodeKind) :
    (b.withNode name kind).Labelled := ⟨hb.table, hb.constants, hb.bounded⟩

theorem extends_newNode (b : Builder) (name : String) (kind : NodeKind) :
    Extends (fun _ => True) 1 b { b with netlist := (b.netlist.addNode name kind).2 } where
  lookup _ _ h := h
  netName _ _ h := h
  nodeName k other hk := by
    have hlt : k < b.netlist.nodes.size := by
      obtain ⟨n, hn, -⟩ := Option.map_eq_some_iff.mp hk
      exact (Array.getElem?_eq_some_iff.mp hn).1
    exact (nodeName?_addNode b.netlist name kind k).trans ((if_neg (Nat.ne_of_lt hlt)).trans hk)
  pin _ _ h _ := h
  quiet _ _ _ _ h _ := h
  size := Array.size_push ..
  pins k _ := congrFun (pinsOfNode_addNode b.netlist name kind) k
  sizes k _ := congrFun (sizesOfNode_addNode b.netlist name kind) k
  topInputs := rfl
  topOutputs := rfl

theorem extends_withNode (b : Builder) (name : String) (kind : NodeKind) :
    Extends (fun _ => True) 1 b (b.withNode name kind) :=
  { extends_newNode b name kind with }

theorem holdsPorts_withNode (b : Builder) (name : String) (kind : NodeKind) (d : Direction) :
    (b.withNode name kind).HoldsPorts b.netlist.nodes.size d [] := by
  refine ⟨[], pinsOfNode_newNode b.netlist name kind d, ?_, .nil⟩
  · change (b.netlist.addNode name kind).2.sizesOfNode b.netlist.nodes.size d = _
    rw [sizesOfNode_addNode, sizesOfNode, Array.getElem?_size]
    rfl

structure HoldsNode (b : Builder) (id : NodeId) (decl : NodeDeclaration) : Prop where
  name : b.netlist.nodeName? id = some decl.name
  ports : ∀ d, b.HoldsPorts id d (decl.ports d)

theorem HoldsNode.extends {id : NodeId} {decl : NodeDeclaration} (h : b.HoldsNode id decl)
    (hgrown : Extends old n b b₁) (hid : old id) : b₁.HoldsNode id decl where
  name := hgrown.nodeName id decl.name h.name
  ports d := (h.ports d).extends hgrown hid

theorem Labelled.addNode (hb : b.Labelled) {decl : NodeDeclaration} (h : b.addNode decl = .ok b₁) :
    Extends (· < b.netlist.nodes.size) 1 b b₁ ∧ b₁.Labelled ∧
      b₁.HoldsNode b.netlist.nodes.size decl := by
  obtain ⟨kind, b', b'', -, -, hinputs, houtputs, hparams⟩ := addNode_eq_ok h
  have hnew := extends_withNode b decl.name kind
  have hid : b.netlist.nodes.size < (b.withNode decl.name kind).netlist.nodes.size := by
    rw [hnew.size]
    exact Nat.lt_succ_self _
  obtain ⟨hgrown', hlabelled', hports'⟩ := addsPorts_foldlM
    (fun hb hid h => hb.addInputPort hid h) (hb.withNode decl.name kind) hid hinputs
  have hid' : b.netlist.nodes.size < b'.netlist.nodes.size := hgrown'.size ▸ hid
  obtain ⟨hgrown'', hlabelled'', hports''⟩ := addsPorts_foldlM
    (fun hb hid h => hb.addOutputPort hid h) hlabelled' hid' houtputs
  have hlast : Extends (fun _ => True) 0 b'' b₁ ∧ b₁.Labelled := by
    refine foldlM_invariant (fun b => Extends (fun _ => True) 0 b'' b ∧ b.Labelled) ?_
      ⟨extends_refl _ _, hlabelled''⟩ hparams
    intro b _ b' _ hparam hb
    obtain ⟨hgrown, hlabelled⟩ := hb.2.addParam hparam
    exact ⟨hb.1.trans hgrown, hlabelled⟩
  have hne : ∀ k, k < b.netlist.nodes.size → k ≠ b.netlist.nodes.size := fun _ => Nat.ne_of_lt
  refine ⟨?_, hlast.2, ?_, ?_⟩
  · exact (((hnew.mono fun _ _ => trivial).trans (hgrown'.mono hne)).trans (hgrown''.mono hne)).trans
      (hlast.1.mono fun _ _ => trivial)
  · have hname : (b.withNode decl.name kind).netlist.nodeName? b.netlist.nodes.size = some decl.name :=
      (nodeName?_addNode b.netlist decl.name kind _).trans (if_pos rfl)
    exact hlast.1.nodeName _ _ (hgrown''.nodeName _ _ (hgrown'.nodeName _ _ hname))
  · intro d
    have hbefore := hports'' d _ (hports' d [] (holdsPorts_withNode b _ kind d))
    have hports : b₁.HoldsPorts b.netlist.nodes.size d _ := hbefore.extends hlast.1 trivial
    cases d with
    | input => exact hports
    | output => exact hports

/-- Nodes that are added one after the other are numbered in their order, and hold their ports. -/
theorem Labelled.addNodes (hb : b.Labelled) {decls : List NodeDeclaration}
    (h : decls.foldlM Builder.addNode b = .ok b₁) :
    Extends (· < b.netlist.nodes.size) decls.length b b₁ ∧ b₁.Labelled ∧
      ∀ i decl, decls[i]? = some decl → b₁.HoldsNode (b.netlist.nodes.size + i) decl := by
  induction decls generalizing b with
  | nil =>
    cases h
    exact ⟨extends_refl _ _, hb, fun i decl hi => nomatch hi⟩
  | cons first decls ih =>
    rw [List.foldlM_cons] at h
    obtain ⟨b', hfirst, hrest⟩ := bind_eq_ok_iff.mp h
    obtain ⟨hgrown, hlabelled, hnode⟩ := hb.addNode hfirst
    obtain ⟨hgrown', hlabelled', hports⟩ := ih hlabelled hrest
    have hlt : b.netlist.nodes.size < b'.netlist.nodes.size := by
      rw [hgrown.size]
      exact Nat.lt_succ_self _
    refine ⟨?_, hlabelled', ?_⟩
    · rw [List.length_cons, Nat.add_comm]
      exact hgrown.trans (hgrown'.mono fun _ hk => Nat.lt_trans hk hlt)
    · intro i decl hi
      cases i with
      | zero =>
        cases hi
        exact hnode.extends hgrown' hlt
      | succ i =>
        have hnext := hports i decl hi
        rw [hgrown.size, Nat.add_assoc, Nat.add_comm 1] at hnext
        exact hnext

end Nodes

end Growing

end Builder

end CircuitLowering
