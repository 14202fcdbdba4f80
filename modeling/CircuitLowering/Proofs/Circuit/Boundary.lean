import CircuitLowering.Proofs.Circuit.Nodes

/-!
# The boundary of a circuit

The inputs of a circuit come before its nodes and the outputs after them.  An input makes a net of its
own and takes its name over, also from a constant net; this is the one step that changes what a name
denotes, so a builder does not grow by it in the sense of `Builder.Extends`.  `Builder.Started` says how
a builder stands once it has its inputs, and `Builder.Finishes` what the outputs add in the end.
-/

namespace CircuitLowering

open Netlist

/-! ### Nodes of the boundary

Such a node has one port, and the port has one pin. -/

theorem getElem?_pins_newPin (nl : Netlist) (id : NodeId) (mapping : String) (d : Direction) :
    (nl.attachPort id mapping 1 d).2.pins[nl.pins.size]? =
      some { mapping, direction := d, node := id } := by
  rw [getElem?_pins_attachPort, if_neg (Nat.lt_irrefl _), if_pos (Nat.lt_succ_self _)]

theorem pinsOfNode_firstPort {nl : Netlist} {id : NodeId} {d : Direction}
    (hid : id < nl.nodes.size) (hnone : nl.pinsOfNode id d = []) (mapping : String) (size : Nat) :
    (nl.attachPort id mapping size d).2.pinsOfNode id d = List.range' nl.pins.size size := by
  rw [pinsOfNode_attachPort _ _ _ _ _ hid, if_pos ⟨rfl, rfl⟩, hnone, List.nil_append]

namespace Builder

/-! ### Inputs of the circuit -/

section Inputs

variable {b : Builder}

/-- The pin through which an input of the circuit drives its net. -/
def sourcePin (name : String) (node : NodeId) (net : NetId) : Pin :=
  { name := some name, mapping := name, direction := .output, node, net := some net }

/-- The node, the net and the pin of an input, before its name is taken over. -/
theorem Labelled.addSource (hb : b.Labelled) (name : String) :
    let b' := { b with netlist := (b.netlist.addSource name .input).2.2 }
    Extends (· < b.netlist.nodes.size) 1 b b' ∧ b'.Labelled ∧
      b'.netlist.netName? b.netlist.nets.size = some (some name) ∧
      b'.netlist.pinsOfNode b.netlist.nodes.size .output = [b.netlist.pins.size] ∧
      b'.netlist.pins[b.netlist.pins.size]?
        = some (sourcePin name b.netlist.nodes.size b.netlist.nets.size) := by
  intro b'
  -- the node and the net come first, then the pin, which gets its name and its net
  let b₁ : Builder := { b with netlist := (b.netlist.addNode name .input).2 }
  let b₂ : Builder := { b₁ with netlist := (b₁.netlist.addNet (some name)).2 }
  let b₃ : Builder :=
    { b₂ with netlist := (b₂.netlist.attachPort b.netlist.nodes.size name 1 .output).2 }
  let b₄ : Builder :=
    { b₃ with netlist := b₃.netlist.setPinName b.netlist.pins.size (some name) }
  have hsame : b' = b₄.connect b.netlist.nets.size b.netlist.pins.size := rfl
  have hlabelled₂ : b₂.Labelled :=
    (show b₁.Labelled from ⟨hb.table, hb.constants, hb.bounded⟩).addNet (some name)
  obtain ⟨hgrown₃, hlabelled₃⟩ := hlabelled₂.attachPort b.netlist.nodes.size name 1 .output
  have hpin₃ : b₃.netlist.pins[b.netlist.pins.size]? =
      some { mapping := name, direction := .output, node := b.netlist.nodes.size } :=
    getElem?_pins_newPin b₂.netlist b.netlist.nodes.size name .output
  have hpin₄ := (getElem?_pins_setPinName b₃.netlist b.netlist.pins.size (some name)
    b.netlist.pins.size).trans (if_pos rfl)
  rw [hpin₃, Option.map_some] at hpin₄
  have hnew : b.netlist.netName? b.netlist.nets.size = none := by
    rw [netName?, Array.getElem?_size, Option.map_none]
  have hnet : b.netlist.nets.size < b₄.netlist.nets.size := by
    change _ < (b.netlist.nets.push _).size
    rw [Array.size_push]
    exact Nat.lt_succ_self _
  have hgrown : Extends (· < b.netlist.nodes.size) 1 b b₃ :=
    (((extends_newNode b name .input).trans (extends_addNet _ b₁ (some name))).mono
      fun _ _ => trivial).trans (hgrown₃.mono fun _ => Nat.ne_of_lt)
  rw [hsame]
  refine ⟨(hgrown.setPinName hpin₃ rfl (some name)).connect hpin₄ rfl (by simp [hnew]),
    (hlabelled₃.setPinName _ _).connect hnet _, ?_, ?_, ?_⟩
  · exact (netName?_connect b₄.netlist b.netlist.nets.size b.netlist.pins.size _).trans
      ((netName?_addNet b₁.netlist (some name) _).trans (if_pos rfl))
  · have hnode : b.netlist.nodes.size < b₂.netlist.nodes.size :=
      size_nodes_lt_addNode b.netlist name .input
    have hnone : b₂.netlist.pinsOfNode b.netlist.nodes.size .output = [] :=
      pinsOfNode_newNode b.netlist name .input .output
    have hconnect := pinsOfNode_connect b₄.netlist b.netlist.nets.size b.netlist.pins.size
    exact (congrFun (congrFun hconnect _) _).trans (pinsOfNode_firstPort hnode hnone name 1)
  · exact (pins_connect_of_eq b.netlist.nets.size hpin₄ _).trans (if_pos rfl)

/-- The nets that names denote before there are inputs. -/
def constantNets : List (String × NetId) :=
  [(groundName, groundNet), (powerName, powerNet), (padName, padNet)]

structure Started (names : List String) (b : Builder) : Prop where
  labelled : b.Labelled
  size : b.netlist.nodes.size = 3 + names.length
  topInputs : b.netlist.topInputs = List.range' 3 names.length
  topOutputs : b.netlist.topOutputs = []
  /-- The name of an input denotes a net of its own. -/
  taken : ∀ name ∈ names, ∃ w, 3 ≤ w ∧ b.nets.lookup name = some w
  kept : ∀ name, name ∉ names → b.nets.lookup name = constantNets.lookup name
  /-- Where no name comes twice, each input drives the net that its name denotes. -/
  inputs : names.Nodup → ∀ (i : Nat) (name : String), names[i]? = some name → ∃ pin,
    b.netlist.pinsOfNode (3 + i) .output = [pin] ∧ b.Assigned (3 + i) name .output pin (some name)

theorem started_first (hnetlist : b.netlist = initial) (hnets : b.nets = constantNets) :
    Started [] b := by
  have hnames : ∀ w name, constantNames[w]? = some name →
      b.netlist.netName? w = some (some name) := by
    have hall : ∀ w < 3, initial.netName? w = constantNames[w]?.map some := by decide +kernel
    intro w name hw
    have hlt : w < constantNames.length := (List.getElem?_eq_some_iff.mp hw).1
    rw [hnetlist, hall w hlt, hw]
    rfl
  have htable : ∀ name w, constantNets.lookup name = some w → constantNames[w]? = some name := by
    intro name w hw
    simp only [constantNets, lookup_cons_eq] at hw
    split at hw
    · next h => cases hw; rw [h]; rfl
    · split at hw
      · next h => cases hw; rw [h]; rfl
      · split at hw
        · next h => cases hw; rw [h]; rfl
        · cases hw
  have hboundary : initial.nodes.size = 3 ∧ initial.topInputs = [] ∧ initial.topOutputs = [] := by
    decide +kernel
  constructor
  · refine ⟨?_, hnames, ?_⟩
    · intro name w hw
      rw [hnets] at hw
      exact hnames w name (htable name w hw)
    · intro id p w hp hw
      rw [hnetlist] at hp ⊢
      exact crossReferenced_initial.net_of_pin hp hw
  · rw [hnetlist]
    exact hboundary.1
  · rw [hnetlist]
    exact hboundary.2.1
  · rw [hnetlist]
    exact hboundary.2.2
  · exact fun _ hname => absurd hname List.not_mem_nil
  · intro name _
    rw [hnets]
  · exact fun _ i name hi => nomatch hi

theorem addInput_eq (b : Builder) (name : String) :
    b.addInput name =
      let nl := (b.netlist.addSource name .input).2.2
      { b with
        netlist := { nl with topInputs := nl.topInputs ++ [b.netlist.nodes.size] }
        nets := (name, b.netlist.nets.size) :: b.nets } := rfl

/-- A new input drives the net that its name denotes from then on. -/
theorem Labelled.assigned_addInput (hb : b.Labelled) (name : String) :
    (b.addInput name).netlist.pinsOfNode b.netlist.nodes.size .output = [b.netlist.pins.size] ∧
      (b.addInput name).Assigned b.netlist.nodes.size name .output b.netlist.pins.size (some name) := by
  obtain ⟨-, -, -, hpins, hpin⟩ := hb.addSource name
  rw [addInput_eq]
  generalize (b.netlist.addSource name .input).2.2 = nl at hpins hpin ⊢
  exact ⟨hpins, b.netlist.nets.size, hpin, (lookup_cons_eq name name _ b.nets).trans (if_pos rfl)⟩

/-- An input takes its own name over and no other. -/
theorem Assigned.addInput (hb : b.Labelled) {node : NodeId} {mapping : String} {d : Direction}
    {id : PinId} {name other : String} (h : b.Assigned node mapping d id (some other))
    (hne : other ≠ name) : (b.addInput name).Assigned node mapping d id (some other) := by
  obtain ⟨hgrown, -⟩ := hb.addSource name
  obtain ⟨w, hp, hw⟩ := h.extends hgrown
  rw [addInput_eq]
  exact ⟨w, hp, (lookup_cons_eq other name _ b.nets).trans ((if_neg hne).trans hw)⟩

/-- The inputs before a new one keep their pins. -/
theorem pinsOfNode_addInput (hb : b.Labelled) (name : String) {k : NodeId}
    (hk : k < b.netlist.nodes.size) (d : Direction) :
    (b.addInput name).netlist.pinsOfNode k d = b.netlist.pinsOfNode k d := by
  have hpins := (hb.addSource name).1.pins k hk
  rw [addInput_eq]
  generalize (b.netlist.addSource name .input).2.2 = nl at hpins ⊢
  exact congrFun hpins d

theorem Started.addInput {names : List String} (hb : Started names b) (name : String) :
    Started (names ++ [name]) (b.addInput name) := by
  have hinputs : (names ++ [name]).Nodup → ∀ (i : Nat) (other : String),
      (names ++ [name])[i]? = some other → ∃ pin,
        (b.addInput name).netlist.pinsOfNode (3 + i) .output = [pin] ∧
          (b.addInput name).Assigned (3 + i) other .output pin (some other) := by
    intro hnodup i other hi
    obtain ⟨hnames, -, hdisjoint⟩ := List.nodup_append.mp hnodup
    rw [List.getElem?_append] at hi
    split at hi
    · next hlt =>
      obtain ⟨pin, hpins, hassigned⟩ := hb.inputs hnames i other hi
      have hold : 3 + i < b.netlist.nodes.size := by rw [hb.size]; omega
      have hne : other ≠ name := hdisjoint other (List.mem_of_getElem? hi) name (by simp)
      exact ⟨pin, (pinsOfNode_addInput hb.labelled name hold _).trans hpins,
        hassigned.addInput hb.labelled hne⟩
    · next hge =>
      obtain ⟨hlt, hother⟩ := List.getElem?_eq_some_iff.mp hi
      rw [List.getElem_singleton] at hother
      rw [List.length_singleton] at hlt
      have hindex : i = names.length := by omega
      subst hindex hother
      rw [← hb.size]
      exact ⟨_, hb.labelled.assigned_addInput name⟩
  obtain ⟨hgrown, hlabelled, hname, -, -⟩ := hb.labelled.addSource name
  rw [addInput_eq] at hinputs ⊢
  generalize (b.netlist.addSource name .input).2.2 = nl at hinputs hgrown hlabelled hname
  have hlookup (other : String) : ((name, b.netlist.nets.size) :: b.nets).lookup other =
      if other = name then some b.netlist.nets.size else b.nets.lookup other :=
    lookup_cons_eq other name b.netlist.nets.size b.nets
  refine ⟨⟨?_, hlabelled.constants, hlabelled.bounded⟩, ?_, ?_, ?_, ?_, ?_, ?_⟩
  · intro other w hw
    change ((name, b.netlist.nets.size) :: b.nets).lookup other = some w at hw
    rw [hlookup] at hw
    split at hw
    · next h =>
      subst h
      cases hw
      exact hname
    · exact hlabelled.table other w hw
  · rw [List.length_append, List.length_singleton, ← Nat.add_assoc, ← hb.size]
    exact hgrown.size
  · have htop : nl.topInputs = b.netlist.topInputs := hgrown.topInputs
    change nl.topInputs ++ [b.netlist.nodes.size] = _
    rw [htop, hb.topInputs, hb.size, List.length_append, List.length_singleton, List.range'_concat]
    simp
  · exact hgrown.topOutputs.trans hb.topOutputs
  · intro other hother
    change ∃ w, 3 ≤ w ∧ ((name, b.netlist.nets.size) :: b.nets).lookup other = some w
    rw [hlookup]
    by_cases hsame : other = name
    · exact ⟨_, hb.labelled.two_lt_nets, if_pos hsame⟩
    · have hold : other ∈ names := by simpa [hsame] using hother
      rw [if_neg hsame]
      exact hb.taken other hold
  · intro other hother
    rw [List.mem_append, not_or, List.mem_singleton] at hother
    change ((name, b.netlist.nets.size) :: b.nets).lookup other = _
    rw [hlookup, if_neg hother.2]
    exact hb.kept other hother.1
  · exact hinputs

theorem Started.addInputs {done : List String} (hb : Started done b) (names : List String) :
    Started (done ++ names) (names.foldl Builder.addInput b) := by
  induction names generalizing done b with
  | nil =>
    rw [List.append_nil]
    exact hb
  | cons name names ih =>
    rw [List.append_cons]
    exact ih (hb.addInput name)

theorem started_start (d : CircuitDescription) : Started d.inputs (start d) := by
  unfold start
  generalize d.models.foldl declareModel {} = catalog
  have hnetlist : (Builder.mk catalog initial constantNets []).netlist = initial := by dsimp only
  exact (started_first hnetlist rfl).addInputs d.inputs

end Inputs

/-! ### Outputs of the circuit -/

section Outputs

variable {old : NodeId → Prop} {n : Nat} {b b₁ b₂ : Builder}

def withOutputs (b : Builder) (ids : List NodeId) : Builder :=
  { b with netlist := { b.netlist with topOutputs := ids } }

theorem Extends.withOutputs (h : Extends old n b b₁) (ids : List NodeId) :
    Extends old n (b.withOutputs ids) (b₁.withOutputs ids) := { h with topOutputs := rfl }

theorem Labelled.withOutputs (hb : b.Labelled) (ids : List NodeId) : (b.withOutputs ids).Labelled :=
  ⟨hb.table, hb.constants, hb.bounded⟩

structure Finishes (names : List String) (b b' : Builder) : Prop where
  grown : Extends (· < b.netlist.nodes.size) names.length b (b'.withOutputs b.netlist.topOutputs)
  labelled : b'.Labelled
  topOutputs : b'.netlist.topOutputs =
    b.netlist.topOutputs ++ List.range' b.netlist.nodes.size names.length
  outputs : ∀ (i : Nat) (name : String), names[i]? = some name → ∃ pin,
    b'.netlist.pinsOfNode (b.netlist.nodes.size + i) .input = [pin] ∧
      b'.Assigned (b.netlist.nodes.size + i) name .input pin (some name)

theorem addOutput_eq (b : Builder) (name : String) :
    b.addOutput name =
      let b₁ := (b.netOf name).2
      let nl := ((b₁.netlist.addNode name .output).2.attachPort b₁.netlist.nodes.size name 1 .input).2
      ({ b₁ with netlist := nl }.connect (b.netOf name).1 b₁.netlist.pins.size).withOutputs
        (b₁.netlist.topOutputs ++ [b₁.netlist.nodes.size]) := by
  have htop (nl : Netlist) (net : NetId) (pin : PinId) (id : NodeId) :
      { nl.connect net pin with topOutputs := (nl.connect net pin).topOutputs ++ [id] } =
        { nl.connect net pin with topOutputs := nl.topOutputs ++ [id] } := by
    rw [topOutputs_connect]
  unfold Builder.addOutput attachTopOutput
  exact congrArg (fun nl => { (b.netOf name).2 with netlist := nl }) (htop _ _ _ _)

theorem Labelled.addOutput (hb : b.Labelled) (name : String) : Finishes [name] b (b.addOutput name) := by
  obtain ⟨hgrown₁, hlabelled₁, hlookup⟩ := hb.netOf (fun _ => True) name
  have heq := addOutput_eq b name
  generalize (b.netOf name).2 = b₁ at hgrown₁ hlabelled₁ hlookup heq
  generalize (b.netOf name).1 = w at hlookup heq
  -- a node with one pin, which reads the net of the name
  let b₂ : Builder := { b₁ with netlist := (b₁.netlist.addNode name .output).2 }
  let b₃ : Builder :=
    { b₂ with netlist := (b₂.netlist.attachPort b₁.netlist.nodes.size name 1 .input).2 }
  have hsize : b₁.netlist.nodes.size = b.netlist.nodes.size := hgrown₁.size
  have hlabelled₂ : b₂.Labelled := ⟨hlabelled₁.table, hlabelled₁.constants, hlabelled₁.bounded⟩
  obtain ⟨hgrown₃, hlabelled₃⟩ := hlabelled₂.attachPort b₁.netlist.nodes.size name 1 .input
  have hgrown : Extends (· < b₁.netlist.nodes.size) 1 b b₃ :=
    ((hgrown₁.trans (extends_newNode b₁ name .output)).mono fun _ _ => trivial).trans
      (hgrown₃.mono fun _ => Nat.ne_of_lt)
  have hpin : b₃.netlist.pins[b₁.netlist.pins.size]? =
      some { mapping := name, direction := .input, node := b₁.netlist.nodes.size } :=
    getElem?_pins_newPin b₂.netlist b₁.netlist.nodes.size name .input
  have hpins := pins_connect_of_eq w hpin
  have hnet : w < b₃.netlist.nets.size := lt_of_netName? (hlabelled₁.table name w hlookup)
  have hlast := hgrown.connect hpin rfl (hgrown.named hlabelled₃ hlookup)
  have hlabelled := hlabelled₃.connect hnet b₁.netlist.pins.size
  have hpinsOfNode : (b₃.connect w b₁.netlist.pins.size).netlist.pinsOfNode b₁.netlist.nodes.size
      .input = [b₁.netlist.pins.size] := by
    have hnode := size_nodes_lt_addNode b₁.netlist name .output
    have hnone := pinsOfNode_newNode b₁.netlist name .output .input
    have hconnect := pinsOfNode_connect b₃.netlist w b₁.netlist.pins.size
    exact (congrFun (congrFun hconnect _) _).trans (pinsOfNode_firstPort hnode hnone name 1)
  have hassigned : (b₃.connect w b₁.netlist.pins.size).Assigned b₁.netlist.nodes.size name .input
      b₁.netlist.pins.size (some name) :=
    ⟨w, (hpins _).trans (if_pos rfl), hlookup⟩
  have heq : b.addOutput name = (b₃.connect w b₁.netlist.pins.size).withOutputs
      (b₁.netlist.topOutputs ++ [b₁.netlist.nodes.size]) := heq
  rw [heq]
  generalize b₃.connect w b₁.netlist.pins.size = b₄ at hlast hlabelled hpinsOfNode hassigned ⊢
  rw [hsize] at hlast hpinsOfNode hassigned
  refine ⟨hlast.withOutputs b.netlist.topOutputs, hlabelled.withOutputs _, ?_, ?_⟩
  · change b₁.netlist.topOutputs ++ [b₁.netlist.nodes.size] = _
    rw [hgrown₁.topOutputs, hsize]
    rfl
  · intro i other hi
    cases i with
    | zero =>
      cases hi
      exact ⟨_, hpinsOfNode, hassigned⟩
    | succ i => cases hi

theorem Finishes.trans {names more : List String} (h : Finishes names b b₁)
    (h' : Finishes more b₁ b₂) : Finishes (names ++ more) b b₂ := by
  have hsize : b₁.netlist.nodes.size = b.netlist.nodes.size + names.length := h.grown.size
  have hold : ∀ k, k < b.netlist.nodes.size → k < b₁.netlist.nodes.size := by
    rw [hsize]
    exact fun k hk => Nat.lt_add_right _ hk
  have hgrown := h'.grown.withOutputs b.netlist.topOutputs
  refine ⟨?_, h'.labelled, ?_, ?_⟩
  · rw [List.length_append]
    exact h.grown.trans (hgrown.mono hold)
  · rw [h'.topOutputs, h.topOutputs, hsize, List.append_assoc, List.range'_append_1,
      List.length_append]
  · intro i name hi
    rw [List.getElem?_append] at hi
    split at hi
    · next hlt =>
      obtain ⟨pin, hpins, hassigned⟩ := h.outputs i name hi
      have hnode : b.netlist.nodes.size + i < b₁.netlist.nodes.size := by omega
      have hassigned₂ := hassigned.extends h'.grown
      exact ⟨pin, (congrFun (h'.grown.pins _ hnode) _).trans hpins, hassigned₂⟩
    · next hge =>
      obtain ⟨pin, hpins, hassigned⟩ := h'.outputs _ name hi
      have hindex : b₁.netlist.nodes.size + (i - names.length) = b.netlist.nodes.size + i := by
        omega
      rw [hindex] at hpins hassigned
      exact ⟨pin, hpins, hassigned⟩

theorem Labelled.addOutputs (hb : b.Labelled) (names : List String) :
    Finishes names b (names.foldl Builder.addOutput b) := by
  induction names generalizing b with
  | nil =>
    refine ⟨extends_refl _ _, hb, ?_, ?_⟩
    · simp
    · exact fun i name hi => nomatch hi
  | cons name names ih =>
    have hfirst := hb.addOutput name
    exact hfirst.trans (ih hfirst.labelled)

end Outputs

/-! ### What all declarations keep -/

section Keeping

variable {P : Builder → Prop}

/-- What holds of a builder without inputs, and what each input keeps, holds once there are all. -/
theorem start_keeps (d : CircuitDescription)
    (hfirst : ∀ b : Builder, b.netlist = initial → b.nets = constantNets → P b)
    (hinput : ∀ (b : Builder) (name : String), b.Labelled → name ∈ d.inputs → P b →
      P (b.addInput name)) : P (start d) := by
  unfold start
  generalize d.models.foldl declareModel {} = catalog
  have hnetlist : (Builder.mk catalog initial constantNets []).netlist = initial := by dsimp only
  have hfolded (names : List String) {done : List String} {b : Builder} (hb : Started done b)
      (hsub : names ⊆ d.inputs) (hP : P b) : P (names.foldl Builder.addInput b) := by
    induction names generalizing done b with
    | nil => exact hP
    | cons name names ih =>
      obtain ⟨hname, hnames⟩ := List.cons_subset.mp hsub
      exact ih (hb.addInput name) hnames (hinput b name hb.labelled hname hP)
  exact hfolded d.inputs (started_first hnetlist rfl) (List.Subset.refl _) (hfirst _ hnetlist rfl)

/-- What holds once there are all inputs, and what each node and each output keeps, holds in the end. -/
theorem build_keeps {d : CircuitDescription} {circuit : Circuit} (h : d.build = .ok circuit)
    (hstart : P (start d))
    (hnode : ∀ (b : Builder) (decl : NodeDeclaration) (b' : Builder), b.Labelled → P b →
      b.addNode decl = .ok b' → P b')
    (houtput : ∀ (b : Builder) (name : String), b.Labelled → P b → P (b.addOutput name)) :
    ∃ b : Builder, b.Labelled ∧ P b ∧ b.netlist = circuit.netlist := by
  obtain ⟨b, hnodes, h⟩ := bind_eq_ok_iff.mp h
  cases h
  have hb : b.Labelled ∧ P b := by
    refine foldlM_invariant (fun b => b.Labelled ∧ P b) ?_ ⟨(started_start d).labelled, hstart⟩ hnodes
    intro b₁ decl b₂ _ hadd hb₁
    exact ⟨(hb₁.1.addNode hadd).2.1, hnode b₁ decl b₂ hb₁.1 hb₁.2 hadd⟩
  have hfolded (names : List String) {b : Builder} (hb : b.Labelled ∧ P b) :
      (names.foldl Builder.addOutput b).Labelled ∧ P (names.foldl Builder.addOutput b) := by
    induction names generalizing b with
    | nil => exact hb
    | cons name names ih => exact ih ⟨(hb.1.addOutput name).labelled, houtput b name hb.1 hb.2⟩
  obtain ⟨hlabelled, hP⟩ := hfolded d.outputs hb
  exact ⟨_, hlabelled, hP, rfl⟩

end Keeping

end Builder

end CircuitLowering
