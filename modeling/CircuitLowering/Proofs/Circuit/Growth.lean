import CircuitLowering.Proofs.Circuit.Acceptance
import Mathlib.Data.List.Forall2

/-!
# How a circuit in the making grows

What a declaration adds to a builder it adds to what is there: a name keeps the net that it denotes,
a net keeps its name and a pin that has a net keeps it.  `Builder.Extends` says this of two builders,
and that a net without a name, which only its maker knows, gains no pin.  `Builder.Labelled` is what
every builder keeps to: the names of signals are the names of their nets, so no net has two.

`Builder.Assigned` says of a pin that it was given the net of a name, or none.  Once it is true of a
pin it stays true, since builders only grow.
-/

namespace CircuitLowering

open Netlist

/-! ### Names of nets and nodes -/

/-- The name of a net, if it has one; `none` for a number without net. -/
def Netlist.netName? (nl : Netlist) (w : NetId) : Option (Option String) :=
  (nl.nets[w]?).map (·.name)

def Netlist.nodeName? (nl : Netlist) (k : NodeId) : Option String := (nl.nodes[k]?).map (·.name)

def Netlist.constantNames : List String := [groundName, powerName, padName]

namespace Netlist

section Names

variable (nl : Netlist)

/-- What a change of an element keeps, the array keeps. -/
theorem map_getElem?_modify {α β : Type} {f : α → α} {g : α → β} (hf : ∀ a, g (f a) = g a)
    (as : Array α) (k i : Nat) : ((as.modify k f)[i]?).map g = (as[i]?).map g := by
  rw [Array.getElem?_modify]
  split
  · rw [Option.map_map]
    exact congrArg (fun h => (as[i]?).map h) (funext hf)
  · rfl

theorem lt_of_netName? {nl : Netlist} {w : NetId} {name : Option String}
    (h : nl.netName? w = some name) : w < nl.nets.size := by
  unfold netName? at h
  obtain ⟨n, hn, -⟩ := Option.map_eq_some_iff.mp h
  exact (Array.getElem?_eq_some_iff.mp hn).1

theorem netName?_addNet (name : Option String) (w : NetId) :
    (nl.addNet name).2.netName? w = if w = nl.nets.size then some name else nl.netName? w := by
  simp only [netName?, addNet, Array.getElem?_push]
  split <;> rfl

/-- Pins come and go, names stay. -/
theorem netName?_connect (net : NetId) (pin : PinId) (w : NetId) :
    (nl.connect net pin).netName? w = nl.netName? w := by
  have hattach (nets : Array Net) (d : Direction) :
      ((nets.modify net (·.attach pin d))[w]?).map (·.name) = (nets[w]?).map (·.name) :=
    map_getElem?_modify (fun n => by cases d <;> rfl) nets net w
  have hdetach (nets : Array Net) (old : NetId) (d : Direction) :
      ((nets.modify old (·.detach pin d))[w]?).map (·.name) = (nets[w]?).map (·.name) :=
    map_getElem?_modify (fun n => by cases d <;> rfl) nets old w
  unfold connect netName?
  split
  · rfl
  · next p _ =>
    dsimp only
    rw [hattach]
    cases p.net with
    | none => rfl
    | some old => exact hdetach nl.nets old p.direction

theorem nodeName?_connect (net : NetId) (pin : PinId) (k : NodeId) :
    (nl.connect net pin).nodeName? k = nl.nodeName? k := by
  rw [nodeName?, nodeName?, nodes_connect]

theorem nodeName?_attachPort (node : NodeId) (mapping : String) (size : Nat) (d : Direction)
    (k : NodeId) : (nl.attachPort node mapping size d).2.nodeName? k = nl.nodeName? k :=
  map_getElem?_modify (fun n => by cases d <;> rfl) nl.nodes node k

theorem nodeName?_setParam (node : NodeId) (name : String) (value : Param) (k : NodeId) :
    (nl.setParam node name value).nodeName? k = nl.nodeName? k :=
  map_getElem?_modify (by intro n; rfl) nl.nodes node k

theorem nodeName?_addNode (name : String) (kind : NodeKind) (k : NodeId) :
    (nl.addNode name kind).2.nodeName? k =
      if k = nl.nodes.size then some name else nl.nodeName? k := by
  simp only [nodeName?, addNode, Array.getElem?_push]
  split <;> rfl

end Names

/-! A connection changes no list of a node and nothing of the boundary. -/

section Connecting

variable (nl : Netlist) (net : NetId) (pin : PinId)

theorem pinsOfNode_connect : (nl.connect net pin).pinsOfNode = nl.pinsOfNode := by
  funext k d
  simp only [pinsOfNode, nodes_connect]

theorem sizesOfNode_connect : (nl.connect net pin).sizesOfNode = nl.sizesOfNode := by
  funext k d
  simp only [sizesOfNode, nodes_connect]

theorem pins_connect_of_eq {nl : Netlist} {pin : PinId} {p : Pin} (hp : nl.pins[pin]? = some p)
    (other : PinId) : (nl.connect net pin).pins[other]? =
      if other = pin then some { p with net := some net } else nl.pins[other]? := by
  rw [getElem?_pins_connect]
  by_cases hother : other = pin
  · subst hother
    rw [if_pos rfl, if_pos rfl, hp]
    rfl
  · rw [if_neg hother, if_neg hother]

theorem topInputs_connect : (nl.connect net pin).topInputs = nl.topInputs := by
  unfold connect
  split <;> rfl

theorem topOutputs_connect : (nl.connect net pin).topOutputs = nl.topOutputs := by
  unfold connect
  split <;> rfl

end Connecting

theorem getElem?_pins_setPinName (nl : Netlist) (id : PinId) (name : Option String) (other : PinId) :
    (nl.setPinName id name).pins[other]? =
      if id = other then (nl.pins[other]?).map ({ · with name := name }) else nl.pins[other]? := by
  simp only [setPinName, Array.getElem?_modify]

end Netlist

/-- What a list of pairs tells of a key once a pair stands in front. -/
theorem lookup_cons_eq {α : Type} (key key' : String) (a : α) (l : List (String × α)) :
    ((key', a) :: l).lookup key = if key = key' then some a else l.lookup key := by
  rw [List.lookup_cons]
  by_cases h : key = key'
  · simp [h]
  · rw [if_neg h, beq_false_of_ne h]

/-! ### Builders that grow -/

namespace Builder

structure Labelled (b : Builder) : Prop where
  table : ∀ name w, b.nets.lookup name = some w → b.netlist.netName? w = some (some name)
  constants : ∀ w name, constantNames[w]? = some name → b.netlist.netName? w = some (some name)
  /-- The net of a pin exists. -/
  bounded : ∀ (id : PinId) (p : Pin) (w : NetId), b.netlist.pins[id]? = some p → p.net = some w →
    w < b.netlist.nets.size

/-- Whether `b'` has grown from `b`: it has `added` nodes more, and the nodes that are `old` have got
no port. -/
structure Extends (old : NodeId → Prop) (added : Nat) (b b' : Builder) : Prop where
  lookup : ∀ name w, b.nets.lookup name = some w → b'.nets.lookup name = some w
  netName : ∀ w name, b.netlist.netName? w = some name → b'.netlist.netName? w = some name
  nodeName : ∀ k name, b.netlist.nodeName? k = some name → b'.netlist.nodeName? k = some name
  pin : ∀ (id : PinId) (p : Pin), b.netlist.pins[id]? = some p → p.net ≠ none →
    b'.netlist.pins[id]? = some p
  /-- A net without a name gains no pin. -/
  quiet : ∀ w, b.netlist.netName? w = some none → ∀ (id : PinId) (p : Pin),
    b'.netlist.pins[id]? = some p → p.net = some w → b.netlist.pins[id]? = some p
  size : b'.netlist.nodes.size = b.netlist.nodes.size + added
  pins : ∀ k, old k → b'.netlist.pinsOfNode k = b.netlist.pinsOfNode k
  sizes : ∀ k, old k → b'.netlist.sizesOfNode k = b.netlist.sizesOfNode k
  topInputs : b'.netlist.topInputs = b.netlist.topInputs
  topOutputs : b'.netlist.topOutputs = b.netlist.topOutputs

section Extending

variable {old : NodeId → Prop} {m n : Nat} {b b₁ b₂ : Builder}

theorem Labelled.two_lt_nets (hb : b.Labelled) : 2 < b.netlist.nets.size :=
  lt_of_netName? (hb.constants 2 padName rfl)

theorem extends_refl (old : NodeId → Prop) (b : Builder) : Extends old 0 b b where
  lookup _ _ h := h
  netName _ _ h := h
  nodeName _ _ h := h
  pin _ _ h _ := h
  quiet _ _ _ _ h _ := h
  size := rfl
  pins _ _ := rfl
  sizes _ _ := rfl
  topInputs := rfl
  topOutputs := rfl

theorem Extends.trans (h : Extends old m b b₁) (h' : Extends old n b₁ b₂) :
    Extends old (m + n) b b₂ where
  lookup name w hw := h'.lookup name w (h.lookup name w hw)
  netName w name hw := h'.netName w name (h.netName w name hw)
  nodeName k name hk := h'.nodeName k name (h.nodeName k name hk)
  pin id p hp hnet := h'.pin id p (h.pin id p hp hnet) hnet
  quiet w hw id p hp hnet := h.quiet w hw id p (h'.quiet w (h.netName w none hw) id p hp hnet) hnet
  size := by rw [h'.size, h.size, Nat.add_assoc]
  pins k hk := (h'.pins k hk).trans (h.pins k hk)
  sizes k hk := (h'.sizes k hk).trans (h.sizes k hk)
  topInputs := h'.topInputs.trans h.topInputs
  topOutputs := h'.topOutputs.trans h.topOutputs

theorem Extends.mono {old' : NodeId → Prop} (hold : ∀ k, old' k → old k) (h : Extends old n b b₁) :
    Extends old' n b b₁ where
  lookup := h.lookup
  netName := h.netName
  nodeName := h.nodeName
  pin := h.pin
  quiet := h.quiet
  size := h.size
  pins k hk := h.pins k (hold k hk)
  sizes k hk := h.sizes k (hold k hk)
  topInputs := h.topInputs
  topOutputs := h.topOutputs

/-! ### Nets -/

theorem Labelled.addNet (hb : b.Labelled) (name : Option String) :
    Labelled { b with netlist := (b.netlist.addNet name).2 } where
  table other w hw := by
    have hold := hb.table other w hw
    rw [netName?_addNet, if_neg (Nat.ne_of_lt (lt_of_netName? hold))]
    exact hold
  constants w other hw := by
    have hold := hb.constants w other hw
    rw [netName?_addNet, if_neg (Nat.ne_of_lt (lt_of_netName? hold))]
    exact hold
  bounded id p w hp hw := by
    simp only [Netlist.addNet, Array.size_push]
    exact Nat.lt_succ_of_lt (hb.bounded id p w hp hw)

theorem extends_addNet (old : NodeId → Prop) (b : Builder) (name : Option String) :
    Extends old 0 b { b with netlist := (b.netlist.addNet name).2 } where
  lookup _ _ h := h
  netName w other hw := by
    rw [netName?_addNet, if_neg (Nat.ne_of_lt (lt_of_netName? hw))]
    exact hw
  nodeName _ _ h := h
  pin _ _ h _ := h
  quiet _ _ _ _ h _ := h
  size := rfl
  pins _ _ := rfl
  sizes _ _ := rfl
  topInputs := rfl
  topOutputs := rfl

/-- A name that is looked up denotes a net from then on. -/
theorem Labelled.netOf (hb : b.Labelled) (old : NodeId → Prop) (name : String) :
    Extends old 0 b (b.netOf name).2 ∧ (b.netOf name).2.Labelled ∧
      (b.netOf name).2.nets.lookup name = some (b.netOf name).1 := by
  unfold Builder.netOf
  split
  · next w hw => exact ⟨extends_refl old b, hb, hw⟩
  · next hnone =>
    have hadd := extends_addNet old b (some name)
    have hlabelled := hb.addNet (some name)
    refine ⟨{ hadd with lookup := ?_ }, { hlabelled with table := ?_ }, ?_⟩
    · intro other w hw
      change ((name, b.netlist.nets.size) :: b.nets).lookup other = some w
      rw [lookup_cons_eq, if_neg]
      · exact hw
      · intro hother
        subst hother
        cases hnone.symm.trans hw
    · intro other w hw
      change ((name, b.netlist.nets.size) :: b.nets).lookup other = some w at hw
      rw [lookup_cons_eq] at hw
      split at hw
      · next hother =>
        subst hother
        cases hw
        rw [netName?_addNet, if_pos rfl]
      · exact hlabelled.table other w hw
    · exact (lookup_cons_eq name name _ b.nets).trans (if_pos rfl)

/-! ### Pins -/

theorem Labelled.connect (hb : b.Labelled) {w : NetId} (hw : w < b.netlist.nets.size) (id : PinId) :
    (b.connect w id).Labelled where
  table name w' hw' := (netName?_connect _ _ _ _).trans (hb.table name w' hw')
  constants w' name hw' := (netName?_connect _ _ _ _).trans (hb.constants w' name hw')
  bounded other p w' hp hw' := by
    change w' < (b.netlist.connect w id).nets.size
    change (b.netlist.connect w id).pins[other]? = some p at hp
    rw [size_nets_connect]
    rw [getElem?_pins_connect] at hp
    split at hp
    · obtain ⟨q, -, rfl⟩ := Option.map_eq_some_iff.mp hp
      cases hw'
      exact hw
    · exact hb.bounded other p w' hp hw'

/-- A pin that has no net yet may get one, unless it is one that had no name in the earlier builder. -/
theorem Extends.connect (h : Extends old n b b₁) {id : PinId} {p : Pin} {w : NetId}
    (hp : b₁.netlist.pins[id]? = some p) (hnet : p.net = none)
    (hw : b.netlist.netName? w ≠ some none) : Extends old n b (b₁.connect w id) where
  lookup := h.lookup
  netName w' name hw' := (netName?_connect _ _ _ _).trans (h.netName w' name hw')
  nodeName k name hk := (nodeName?_connect _ _ _ _).trans (h.nodeName k name hk)
  pin other q hq hqnet := by
    have hold := h.pin other q hq hqnet
    change (b₁.netlist.connect w id).pins[other]? = some q
    rw [getElem?_pins_connect, if_neg]
    · exact hold
    · intro hother
      subst hother
      cases hp.symm.trans hold
      exact hqnet hnet
  quiet w' hw' other q hq hqnet := by
    change (b₁.netlist.connect w id).pins[other]? = some q at hq
    rw [getElem?_pins_connect] at hq
    split at hq
    · obtain ⟨q', -, rfl⟩ := Option.map_eq_some_iff.mp hq
      cases hqnet
      exact absurd hw' hw
    · exact h.quiet w' hw' other q hq hqnet
  size := by
    change (b₁.netlist.connect w id).nodes.size = _
    rw [nodes_connect]
    exact h.size
  pins k hk := by
    change (b₁.netlist.connect w id).pinsOfNode k = _
    rw [pinsOfNode_connect, h.pins k hk]
  sizes k hk := by
    change (b₁.netlist.connect w id).sizesOfNode k = _
    rw [sizesOfNode_connect, h.sizes k hk]
  topInputs := (topInputs_connect _ _ _).trans h.topInputs
  topOutputs := (topOutputs_connect _ _ _).trans h.topOutputs

/-- So may it get a name. -/
theorem Extends.setPinName (h : Extends old n b b₁) {id : PinId} {p : Pin}
    (hp : b₁.netlist.pins[id]? = some p) (hnet : p.net = none) (name : Option String) :
    Extends old n b { b₁ with netlist := b₁.netlist.setPinName id name } :=
  { h with
    pin := by
      intro other q hq hqnet
      have hold := h.pin other q hq hqnet
      change (b₁.netlist.setPinName id name).pins[other]? = some q
      rw [getElem?_pins_setPinName, if_neg]
      · exact hold
      · intro hother
        subst hother
        cases hp.symm.trans hold
        exact hqnet hnet
    quiet := by
      intro w hw other q hq hqnet
      change (b₁.netlist.setPinName id name).pins[other]? = some q at hq
      rw [getElem?_pins_setPinName] at hq
      split at hq
      · next hother =>
        subst hother
        rw [hp, Option.map_some, Option.some.injEq] at hq
        subst hq
        cases hnet.symm.trans hqnet
      · exact h.quiet w hw other q hq hqnet }

theorem Labelled.setPinName (hb : b.Labelled) (id : PinId) (name : Option String) :
    Labelled { b with netlist := b.netlist.setPinName id name } :=
  { hb with
    bounded := by
      intro other q w hq hqnet
      change (b.netlist.setPinName id name).pins[other]? = some q at hq
      rw [getElem?_pins_setPinName] at hq
      split at hq
      · obtain ⟨p, hp, rfl⟩ := Option.map_eq_some_iff.mp hq
        exact hb.bounded other p w hp hqnet
      · exact hb.bounded other q w hq hqnet }

/-! ### Pins that are given their nets -/

/-- The name that a pin gets from the name of its net: outputs get it, inputs do not. -/
def givenName : Direction → Option String → Option String
  | .input, _ => none
  | .output, name? => name?

/-- Whether a pin was given the net of a name, or none: then an input reads the open net, and an output
drives a net that has no name and no other pin. -/
def Assigned (b : Builder) (node : NodeId) (mapping : String) (d : Direction) (id : PinId)
    (name? : Option String) : Prop :=
  ∃ w, b.netlist.pins[id]? =
      some { name := givenName d name?, mapping, direction := d, node, net := some w } ∧
    match name?, d with
    | some name, _ => b.nets.lookup name = some w
    | none, .input => w = padNet
    | none, .output => b.netlist.netName? w = some none ∧
        ∀ (other : PinId) (p : Pin), b.netlist.pins[other]? = some p → p.net = some w → other = id

theorem Assigned.extends {node : NodeId} {mapping : String} {d : Direction} {id : PinId}
    {name? : Option String} (h : b.Assigned node mapping d id name?) (hext : Extends old n b b₁) :
    b₁.Assigned node mapping d id name? := by
  obtain ⟨w, hp, hw⟩ := h
  refine ⟨w, hext.pin id _ hp (by simp), ?_⟩
  cases name? with
  | some name => exact hext.lookup name w hw
  | none =>
    cases d with
    | input => exact hw
    | output =>
      obtain ⟨hanonymous, halone⟩ := hw
      refine ⟨hext.netName w none hanonymous, ?_⟩
      intro other q hq hqnet
      exact halone other q (hext.quiet w hanonymous other q hq hqnet) hqnet

structure Binds (node : NodeId) (mapping : String) (d : Direction) (id : PinId) (name? : Option String)
    (b b' : Builder) : Prop where
  grown : Extends (fun _ => True) 0 b b'
  labelled : b'.Labelled
  assigned : b'.Assigned node mapping d id name?
  others : ∀ other, other ≠ id → b'.netlist.pins[other]? = b.netlist.pins[other]?

section Binding

variable {node : NodeId} {mapping : String} {id : PinId}

/-- A net that a name denotes has a name, also where it has just been made. -/
theorem Extends.named (h : Extends old n b b₁) (hb₁ : b₁.Labelled) {name : String} {w : NetId}
    (hw : b₁.nets.lookup name = some w) : b.netlist.netName? w ≠ some none := by
  intro hnone
  cases (h.netName w none hnone).symm.trans (hb₁.table name w hw)

theorem Labelled.bindInput (hb : b.Labelled)
    (hp : b.netlist.pins[id]? = some { mapping, direction := .input, node }) (name? : Option String) :
    Binds node mapping .input id name? b (b.bindInput id name?) := by
  cases name? with
  | none =>
    have hpad : b.netlist.netName? padNet = some (some padName) := hb.constants 2 padName rfl
    have hpins := pins_connect_of_eq padNet hp
    have hgrown := extends_refl (fun _ => True) b
    refine ⟨hgrown.connect hp rfl (by simp [hpad]), hb.connect hb.two_lt_nets id, ?_, ?_⟩
    · exact ⟨padNet, (hpins id).trans (if_pos rfl), rfl⟩
    · exact fun other hother => (hpins other).trans (if_neg hother)
  | some name =>
    obtain ⟨hgrown, hlabelled, hlookup⟩ := hb.netOf (fun _ => True) name
    have hsame : (b.netOf name).2.netlist.pins = b.netlist.pins := pins_netOf name
    rw [← hsame] at hp
    have hpins := pins_connect_of_eq (b.netOf name).1 hp
    have hnet := lt_of_netName? (hlabelled.table name _ hlookup)
    refine ⟨hgrown.connect hp rfl (hgrown.named hlabelled hlookup), hlabelled.connect hnet id, ?_, ?_⟩
    · exact ⟨_, (hpins id).trans (if_pos rfl), hlookup⟩
    · intro other hother
      rw [← hsame]
      exact (hpins other).trans (if_neg hother)

theorem Labelled.bindOutput (hb : b.Labelled)
    (hp : b.netlist.pins[id]? = some { mapping, direction := .output, node }) {name? : Option String}
    {owner : String} (h : b.bindOutput owner id name? = .ok b₁) :
    Binds node mapping .output id name? b b₁ := by
  cases name? with
  | none =>
    cases h
    have hnew : b.netlist.netName? b.netlist.nets.size = none := by
      rw [netName?, Array.getElem?_size, Option.map_none]
    have hgrown := extends_addNet (fun _ => True) b none
    have hp : (b.netlist.addNet none).2.pins[id]? = some { mapping, direction := .output, node } := hp
    have hpins := pins_connect_of_eq b.netlist.nets.size hp
    have hnet : b.netlist.nets.size < (b.netlist.addNet none).2.nets.size := by
      simp [Netlist.addNet]
    refine ⟨hgrown.connect hp rfl (by simp [hnew]), (hb.addNet none).connect hnet id, ?_, ?_⟩
    · refine ⟨b.netlist.nets.size, (hpins id).trans (if_pos rfl), ?_, ?_⟩
      · exact (netName?_connect _ _ _ _).trans ((netName?_addNet _ none _).trans (if_pos rfl))
      · -- an earlier pin has an earlier net
        intro other p hother hpnet
        by_contra hne
        have hold := hother.symm.trans ((hpins other).trans (if_neg hne))
        exact Nat.lt_irrefl _ (hb.bounded other p _ hold.symm hpnet)
    · exact fun other hother => (hpins other).trans (if_neg hother)
  | some name =>
    obtain ⟨hgrown, hlabelled, hlookup⟩ := hb.netOf (fun _ => True) name
    have hsame : (b.netOf name).2.netlist.pins = b.netlist.pins := pins_netOf name
    rw [← hsame] at hp
    have hnet := lt_of_netName? (hlabelled.table name _ hlookup)
    obtain ⟨-, rfl⟩ := bindOutput_eq_ok h
    have hnamed := (getElem?_pins_setPinName (b.netOf name).2.netlist id (some name) id).trans
      (if_pos rfl)
    rw [hp, Option.map_some] at hnamed
    have hpins := pins_connect_of_eq (b.netOf name).1 hnamed
    refine ⟨(hgrown.setPinName hp rfl (some name)).connect hnamed rfl
      (hgrown.named hlabelled hlookup), (hlabelled.setPinName id (some name)).connect hnet id, ?_, ?_⟩
    · exact ⟨_, (hpins id).trans (if_pos rfl), hlookup⟩
    · intro other hother
      rw [← hsame]
      exact (hpins other).trans ((if_neg hother).trans
        ((getElem?_pins_setPinName _ id _ other).trans (if_neg (Ne.symm hother))))

/-- What is done to one pin after the other is done to all, and to no other pin. -/
theorem binds_foldlM {d : Direction} {f : Builder → PinId × Option String → Except CircuitError Builder}
    (hf : ∀ {b b' : Builder} {id : PinId} {name? : Option String}, b.Labelled →
      b.netlist.pins[id]? = some { mapping, direction := d, node } → f b (id, name?) = .ok b' →
      Binds node mapping d id name? b b')
    {ids : List PinId} (hids : ids.Nodup) {names : List (Option String)}
    (hlength : ids.length = names.length) (hb : b.Labelled)
    (hfresh : ∀ id ∈ ids, b.netlist.pins[id]? = some { mapping, direction := d, node })
    (h : (ids.zip names).foldlM f b = .ok b₁) :
    Extends (fun _ => True) 0 b b₁ ∧ b₁.Labelled ∧
      List.Forall₂ (b₁.Assigned node mapping d) ids names ∧
      ∀ other, other ∉ ids → b₁.netlist.pins[other]? = b.netlist.pins[other]? := by
  induction ids generalizing b names with
  | nil =>
    cases names with
    | nil =>
      cases h
      exact ⟨extends_refl _ _, hb, .nil, fun _ _ => rfl⟩
    | cons name? names => cases hlength
  | cons id ids ih =>
    cases names with
    | nil => cases hlength
    | cons name? names =>
      obtain ⟨hid, hids⟩ := List.nodup_cons.mp hids
      rw [List.zip_cons_cons, List.foldlM_cons] at h
      obtain ⟨b', hfirst, hrest⟩ := bind_eq_ok_iff.mp h
      have hbinds := hf hb (hfresh id List.mem_cons_self) hfirst
      have hfresh' : ∀ other ∈ ids,
          b'.netlist.pins[other]? = some { mapping, direction := d, node } := by
        intro other hother
        rw [hbinds.others other fun hsame => hid (hsame ▸ hother)]
        exact hfresh other (List.mem_cons_of_mem _ hother)
      obtain ⟨hgrown, hlabelled, hassigned, hothers⟩ :=
        ih hids (Nat.succ.inj hlength) hbinds.labelled hfresh' hrest
      refine ⟨hbinds.grown.trans hgrown, hlabelled,
        .cons (hbinds.assigned.extends hgrown) hassigned, ?_⟩
      intro other hother
      rw [List.mem_cons, not_or] at hother
      exact (hothers other hother.2).trans (hbinds.others other hother.1)

end Binding

end Extending

end Builder

end CircuitLowering
