import CircuitLowering.Proofs.Circuit.Boundary

/-!
# What is wrong with a description

`CircuitDescription.violations` lists all that is wrong with a description, in the order in which it is
written down.  It looks at the description alone: at the names of nodes, at bit strings and sizes, and
at outputs that are given the name of a constant net.  Building a circuit stops at the first entry of
the list and reports it, and a description without entries becomes a circuit.

The one thing that building looks up in its own state is the net of a name, and there inputs of the
circuit count: an input takes the name of a constant net over.  `Builder.Follows` is what every builder
knows of the names of the start, and it makes the look-up a matter of the description.
-/

namespace CircuitLowering

open Netlist

/-! ### Violations -/

def Bit.letters : List Char := ['0', '1', 'x', 'X', '-', 'z', 'Z']

def KindDeclaration.bitStrings : KindDeclaration → List String
  | .lut _ mask => [mask]
  | .sop _ _ table => [table]
  | _ => []

def ParamDeclaration.bitStrings : ParamDeclaration → List String
  | .bits letters => [letters]
  | _ => []

def bitsViolations (text : String) : List CircuitError :=
  if text.toList.all (· ∈ Bit.letters) then [] else [.malformedBits text]

namespace NodeDeclaration

variable (decl : NodeDeclaration)

def bitStrings : List String := decl.kind.bitStrings ++ decl.params.entries.flatMap (·.2.bitStrings)

def sizeViolations (port : PortBinding) : List CircuitError :=
  match port.size with
  | some size =>
    if size.toNat = port.nets.length then []
    else [.portSizeMismatch decl.name port.mapping size.toNat port.nets.length]
  | none => []

/-- What is wrong with the net of an output, where `inputs` are the inputs of the circuit. -/
def netViolations (inputs : List String) : Option String → List CircuitError
  | some name =>
    if name ∈ constantNames ∧ name ∉ inputs then [.drivesConstant decl.name name] else []
  | none => []

/-- What is wrong with a node, apart from its name. -/
def violations (inputs : List String) : List CircuitError :=
  decl.kind.bitStrings.flatMap bitsViolations ++
  decl.inputs.flatMap decl.sizeViolations ++
  decl.outputs.flatMap (fun port =>
    decl.sizeViolations port ++ port.nets.flatMap (decl.netViolations inputs)) ++
  decl.params.entries.flatMap fun param => param.2.bitStrings.flatMap bitsViolations

/-- What is wrong with nodes, where `earlier` are the names of the nodes before them. -/
def violationsFrom (inputs : List String) : List String → List NodeDeclaration → List CircuitError
  | _, [] => []
  | earlier, decl :: rest =>
    (if decl.name ∈ earlier then [.duplicateNode decl.name] else []) ++ decl.violations inputs ++
      violationsFrom inputs (decl.name :: earlier) rest

end NodeDeclaration

namespace CircuitDescription

/-- All that is wrong with a description, in its order. -/
def violations (d : CircuitDescription) : List CircuitError :=
  NodeDeclaration.violationsFrom d.inputs [] d.nodes

structure WellFormed (d : CircuitDescription) : Prop where
  distinct : (d.nodes.map (·.name)).Nodup
  bits : ∀ decl ∈ d.nodes, ∀ text ∈ decl.bitStrings, ∀ c ∈ text.toList, c ∈ Bit.letters
  sizes : ∀ decl ∈ d.nodes, ∀ side, ∀ port ∈ decl.ports side, ∀ size, port.size = some size →
    size.toNat = port.nets.length
  /-- An output has the name of a constant net only where an input of the circuit has it, too. -/
  outputs : ∀ decl ∈ d.nodes, ∀ port ∈ decl.outputs, ∀ name, some name ∈ port.nets →
    name ∈ constantNames → name ∈ d.inputs

end CircuitDescription

/-! ### Reports of the first violation -/

/-- Whether a query answers when there are no violations and else fails with the first. -/
def Reports {α : Type} (x : Except CircuitError α) (vs : List CircuitError) : Prop :=
  match x with
  | .ok _ => vs = []
  | .error e => vs.head? = some e

section Reporting

variable {α β : Type} {x : Except CircuitError α} {vs ws : List CircuitError}

theorem Reports.bind (hx : Reports x vs) {f : α → Except CircuitError β}
    (hf : ∀ a, x = .ok a → Reports (f a) ws) : Reports (x >>= f) (vs ++ ws) := by
  cases x with
  | error e =>
    change (vs ++ ws).head? = some e
    rw [List.head?_append, show vs.head? = some e from hx, Option.some_or]
  | ok a =>
    rw [show vs = [] from hx, List.nil_append]
    exact hf a rfl

theorem Reports.map (hx : Reports x vs) (f : α → β) : Reports (x.map f) vs := by
  cases x <;> exact hx

theorem Reports.bind_ok (hx : Reports x vs) (f : α → β) : Reports (x >>= fun a => .ok (f a)) vs := by
  have hbind : Reports (x >>= fun a => .ok (f a)) (vs ++ []) := hx.bind fun _ _ => rfl
  rwa [List.append_nil] at hbind

/-- A run over a list reports the first violation at the first item that has one. -/
theorem reports_foldlM {step : β → α → Except CircuitError β} {violations : α → List CircuitError}
    (P : β → Prop) {as : List α} {b : β}
    (hstep : ∀ b a, P b → Reports (step b a) (violations a))
    (hkeep : ∀ b a b', P b → step b a = .ok b' → P b') (hb : P b) :
    Reports (as.foldlM step b) (as.flatMap violations) := by
  induction as generalizing b with
  | nil => exact rfl
  | cons a as ih =>
    rw [List.foldlM_cons, List.flatMap_cons]
    exact (hstep b a hb).bind fun b' hb' => ih (hkeep b a b' hb hb')

/-! ### Bit strings and sizes -/

theorem Bit.isSome_ofChar? (c : Char) : (Bit.ofChar? c).isSome ↔ c ∈ Bit.letters := by
  unfold Bit.ofChar? Bit.letters
  split <;> simp_all

theorem isSome_mapM {f : α → Option β} (as : List α) :
    (as.mapM f).isSome ↔ ∀ a ∈ as, (f a).isSome := by
  induction as with
  | nil => simp
  | cons a as ih =>
    rw [List.mapM_cons, List.forall_mem_cons, ← ih]
    cases f a <;> cases as.mapM f <;> simp

theorem reports_readBits (text : String) : Reports (readBits text) (bitsViolations text) := by
  have hparse : (Bits.parse? text).isSome ↔ text.toList.all (· ∈ Bit.letters) := by
    rw [Bits.parse?, isSome_mapM]
    simp only [List.mem_reverse, Bit.isSome_ofChar?, List.all_eq_true, decide_eq_true_eq]
  unfold readBits bitsViolations
  cases hbits : Bits.parse? text with
  | some bits =>
    rw [if_pos (hparse.mp (by rw [hbits]; rfl))]
    rfl
  | none =>
    rw [if_neg (fun h => by simpa [hbits] using hparse.mpr h)]
    rfl

theorem reports_toKind (kind : KindDeclaration) :
    Reports kind.toKind (kind.bitStrings.flatMap bitsViolations) := by
  cases kind with
  | lut width mask =>
    rw [KindDeclaration.bitStrings, List.flatMap_singleton]
    exact (reports_readBits mask).map _
  | sop width depth table =>
    rw [KindDeclaration.bitStrings, List.flatMap_singleton]
    exact (reports_readBits table).map _
  | _ => rfl

theorem reports_toParam (param : ParamDeclaration) :
    Reports param.toParam (param.bitStrings.flatMap bitsViolations) := by
  cases param with
  | bits letters =>
    rw [ParamDeclaration.bitStrings, List.flatMap_singleton]
    exact (reports_readBits letters).map _
  | _ => rfl

theorem reports_checkSize (decl : NodeDeclaration) (port : PortBinding) :
    Reports (Builder.checkSize decl.name port) (decl.sizeViolations port) := by
  unfold Builder.checkSize NodeDeclaration.sizeViolations
  cases port.size with
  | none => rfl
  | some size =>
    by_cases hsize : size.toNat = port.nets.length
    · simp only [if_pos hsize]
      rfl
    · simp only [if_neg hsize]
      rfl

end Reporting

namespace Builder

/-! ### Names of constant nets -/

structure Follows (d : CircuitDescription) (b : Builder) : Prop where
  labelled : b.Labelled
  lookup : ∀ name w, (start d).nets.lookup name = some w → b.nets.lookup name = some w

section Following

variable {d : CircuitDescription} {b b' : Builder}

theorem Follows.extends (hb : b.Follows d) {old : NodeId → Prop} {n : Nat}
    (hgrown : Extends old n b b') (hlabelled : b'.Labelled) : b'.Follows d :=
  ⟨hlabelled, fun name w hw => hgrown.lookup name w (hb.lookup name w hw)⟩

theorem follows_start (d : CircuitDescription) : (start d).Follows d :=
  ⟨(started_start d).labelled, fun _ _ hw => hw⟩

theorem netOf_of_lookup {name : String} {w : NetId} (hw : b.nets.lookup name = some w) :
    (b.netOf name).1 = w := by
  unfold netOf
  rw [hw]

/-- A name leads to a constant net if it is the name of one and no input of the circuit has taken it. -/
theorem Follows.isConstantNet_netOf (hb : b.Follows d) (name : String) :
    isConstantNet (b.netOf name).1 = true ↔ name ∈ constantNames ∧ name ∉ d.inputs := by
  have hstart := started_start d
  by_cases hinput : name ∈ d.inputs
  · obtain ⟨w, hle, hw⟩ := hstart.taken name hinput
    rw [netOf_of_lookup (hb.lookup name w hw)]
    simp [hinput, isConstantNet_of_two_lt hle]
  · simp only [hinput, not_false_eq_true, and_true]
    constructor
    · intro hconstant
      -- a constant net has no name but its own
      have hlt : (b.netOf name).1 < 3 := by simpa [isConstantNet] using hconstant
      obtain ⟨-, hlabelled, hlookup⟩ := hb.labelled.netOf (fun _ => True) name
      have hnamed := hlabelled.table name _ hlookup
      obtain ⟨other, hother⟩ : ∃ other, constantNames[(b.netOf name).1]? = some other :=
        ⟨_, List.getElem?_eq_getElem hlt⟩
      have hsame := hnamed.symm.trans (hlabelled.constants _ other hother)
      rw [Option.some.injEq, Option.some.injEq] at hsame
      rw [hsame]
      exact List.mem_of_getElem? hother
    · intro hname
      have hall : ∀ name ∈ constantNames, ∃ w < 3, constantNets.lookup name = some w := by decide
      obtain ⟨w, hlt, hw⟩ := hall name hname
      rw [netOf_of_lookup (hb.lookup name w ((hstart.kept name hinput).trans hw))]
      simpa [isConstantNet] using hlt

theorem Follows.bindOutput (hb : b.Follows d) {owner : String} {pin : PinId}
    {name? : Option String} (h : b.bindOutput owner pin name? = .ok b') : b'.Follows d := by
  cases name? with
  | none =>
    cases h
    have hnet : b.netlist.nets.size < (b.netlist.addNet none).2.nets.size := by
      simp [Netlist.addNet]
    exact ⟨(hb.labelled.addNet none).connect hnet pin, hb.lookup⟩
  | some name =>
    obtain ⟨hgrown, hlabelled, hlookup⟩ := hb.labelled.netOf (fun _ => True) name
    have hnet := lt_of_netName? (hlabelled.table name _ hlookup)
    obtain ⟨-, rfl⟩ := bindOutput_eq_ok h
    exact ⟨(hlabelled.setPinName pin (some name)).connect hnet pin,
      fun other w hw => hgrown.lookup other w (hb.lookup other w hw)⟩

structure FollowsAt (d : CircuitDescription) (id : NodeId) (b : Builder) : Prop
    extends b.Follows d where
  node : id < b.netlist.nodes.size

theorem AddsPort.followsAt {id : NodeId} {side : Direction} {port : PortBinding}
    (h : AddsPort id side port b b') (hb : FollowsAt d id b) : FollowsAt d id b' :=
  ⟨hb.toFollows.extends h.grown h.labelled, h.grown.size ▸ hb.node⟩

end Following

/-! ### Names of nodes and models -/

structure SameRecords (b b' : Builder) : Prop where
  catalog : b'.catalog = b.catalog
  nodeNames : b'.nodeNames = b.nodeNames

section Records

variable {b b' b₁ b₂ : Builder}

theorem SameRecords.trans (h : b.SameRecords b₁) (h' : b₁.SameRecords b₂) : b.SameRecords b₂ where
  catalog := h'.catalog.trans h.catalog
  nodeNames := h'.nodeNames.trans h.nodeNames

theorem sameRecords_netOf (b : Builder) (name : String) : b.SameRecords (b.netOf name).2 := by
  unfold netOf
  split <;> exact ⟨rfl, rfl⟩

theorem sameRecords_bindInput (b : Builder) (pin : PinId) (name? : Option String) :
    b.SameRecords (b.bindInput pin name?) := by
  cases name? with
  | none => exact ⟨rfl, rfl⟩
  | some name =>
    obtain ⟨hcatalog, hnames⟩ := sameRecords_netOf b name
    exact ⟨hcatalog, hnames⟩

theorem sameRecords_bindOutput {owner : String} {pin : PinId} {name? : Option String}
    (h : b.bindOutput owner pin name? = .ok b') : b.SameRecords b' := by
  cases name? with
  | none =>
    cases h
    exact ⟨rfl, rfl⟩
  | some name =>
    obtain ⟨-, rfl⟩ := bindOutput_eq_ok h
    obtain ⟨hcatalog, hnames⟩ := sameRecords_netOf b name
    exact ⟨hcatalog, hnames⟩

theorem sameRecords_addInputPort {owner : String} {id : NodeId} {port : PortBinding}
    (h : addInputPort owner id b port = .ok b') : b.SameRecords b' := by
  obtain ⟨_, -, h⟩ := bind_eq_ok_iff.mp h
  cases h
  refine List.foldlRecOn (motive := fun b' : Builder => b.SameRecords b') _ _ ⟨rfl, rfl⟩ ?_
  intro b₁ hb₁ q _
  exact hb₁.trans (sameRecords_bindInput b₁ q.1 q.2)

theorem sameRecords_addOutputPort {owner : String} {id : NodeId} {port : PortBinding}
    (h : addOutputPort owner id b port = .ok b') : b.SameRecords b' := by
  obtain ⟨_, -, h⟩ := bind_eq_ok_iff.mp h
  refine foldlM_invariant (fun b' : Builder => b.SameRecords b') ?_ ?_ h
  · intro b₁ q b₂ _ hstep hb₁
    exact hb₁.trans (sameRecords_bindOutput hstep)
  · exact ⟨rfl, rfl⟩

/-- A node changes the models and the names of nodes before it gets its ports, and not after. -/
theorem sameRecords_addNode {decl : NodeDeclaration} (h : b.addNode decl = .ok b') :
    ∃ kind, decl.kind.toKind = .ok kind ∧ (b.withNode decl.name kind).SameRecords b' := by
  obtain ⟨kind, b₁, b₂, -, hkind, hinputs, houtputs, hparams⟩ := addNode_eq_ok h
  have h₁ : (b.withNode decl.name kind).SameRecords b₁ :=
    foldlM_invariant (fun b' : Builder => _)
      (fun _ _ _ _ hport hb => hb.trans (sameRecords_addInputPort hport)) ⟨rfl, rfl⟩ hinputs
  have h₂ : (b.withNode decl.name kind).SameRecords b₂ :=
    foldlM_invariant (fun b' : Builder => _)
      (fun _ _ _ _ hport hb => hb.trans (sameRecords_addOutputPort hport)) h₁ houtputs
  refine ⟨kind, hkind, foldlM_invariant (fun b' : Builder => _) ?_ h₂ hparams⟩
  intro b₁ param b₂ _ hparam hb₁
  obtain ⟨value, -, hparam⟩ := bind_eq_ok_iff.mp hparam
  cases hparam
  exact ⟨hb₁.catalog, hb₁.nodeNames⟩

theorem nodeNames_addNode {decl : NodeDeclaration} (h : b.addNode decl = .ok b') :
    b'.nodeNames = decl.name :: b.nodeNames := by
  obtain ⟨kind, -, hsame⟩ := sameRecords_addNode h
  exact hsame.nodeNames

end Records

/-! ### Reports of a builder -/

section Reports

variable {d : CircuitDescription} {b : Builder} (decl : NodeDeclaration)

theorem reports_bindOutput (hb : b.Follows d) (pin : PinId) (name? : Option String) :
    Reports (b.bindOutput decl.name pin name?) (decl.netViolations d.inputs name?) := by
  cases name? with
  | none => exact rfl
  | some name =>
    have hconstant := hb.isConstantNet_netOf name
    unfold Builder.bindOutput NodeDeclaration.netViolations
    dsimp only
    by_cases hnet : isConstantNet (b.netOf name).1 = true
    · rw [if_pos hnet, if_pos (hconstant.mp hnet)]
      exact rfl
    · rw [if_neg hnet, if_neg (mt hconstant.mpr hnet)]
      exact rfl

theorem reports_addInputPort (id : NodeId) (b : Builder) (port : PortBinding) :
    Reports (addInputPort decl.name id b port) (decl.sizeViolations port) :=
  (reports_checkSize decl port).bind_ok _

theorem reports_addOutputPort (hb : b.Follows d) (id : NodeId) (port : PortBinding) :
    Reports (addOutputPort decl.name id b port)
      (decl.sizeViolations port ++ port.nets.flatMap (decl.netViolations d.inputs)) := by
  refine (reports_checkSize decl port).bind fun _ _ => ?_
  have hzip : ((List.range' b.netlist.pins.size port.nets.length).zip port.nets).flatMap
      (fun q => decl.netViolations d.inputs q.2) =
        port.nets.flatMap (decl.netViolations d.inputs) := by
    have hsnd : ((List.range' b.netlist.pins.size port.nets.length).zip port.nets).map Prod.snd =
        port.nets := List.map_snd_zip (by rw [List.length_range'])
    conv_rhs => rw [← hsnd, List.flatMap_map]
  rw [← hzip]
  refine reports_foldlM (Follows d) (fun b q hb => reports_bindOutput decl hb q.1 q.2)
    (fun _ _ _ hb h => hb.bindOutput h) ?_
  exact ⟨(hb.labelled.attachPort id port.mapping port.nets.length .output).2, hb.lookup⟩

theorem reports_addParam (id : NodeId) (b : Builder) (param : String × ParamDeclaration) :
    Reports (addParam id b param) (param.2.bitStrings.flatMap bitsViolations) :=
  (reports_toParam param.2).bind_ok _

theorem reports_addNode (hb : b.Follows d) :
    Reports (b.addNode decl)
      ((if decl.name ∈ b.nodeNames then [.duplicateNode decl.name] else []) ++
        decl.violations d.inputs) := by
  unfold Builder.addNode
  split
  · exact rfl
  · rw [List.nil_append]
    let id := b.netlist.nodes.size
    have hnew (kind : NodeKind) : FollowsAt d id (b.withNode decl.name kind) :=
      ⟨hb.extends (extends_withNode b decl.name kind) (hb.labelled.withNode decl.name kind),
        size_nodes_lt_addNode b.netlist decl.name kind⟩
    have hinput : ∀ (b : Builder) (port : PortBinding) (b' : Builder), FollowsAt d id b →
        addInputPort decl.name id b port = .ok b' → FollowsAt d id b' :=
      fun _ _ _ hb h => (hb.labelled.addInputPort hb.node h).followsAt hb
    have houtput : ∀ (b : Builder) (port : PortBinding) (b' : Builder), FollowsAt d id b →
        addOutputPort decl.name id b port = .ok b' → FollowsAt d id b' :=
      fun _ _ _ hb h => (hb.labelled.addOutputPort hb.node h).followsAt hb
    unfold NodeDeclaration.violations
    rw [List.append_assoc, List.append_assoc]
    refine (reports_toKind decl.kind).bind fun kind _ => ?_
    refine (reports_foldlM (FollowsAt d id)
      (fun b port _ => reports_addInputPort decl id b port) hinput (hnew kind)).bind fun b₁ h₁ => ?_
    have hb₁ : FollowsAt d id b₁ :=
      foldlM_invariant (FollowsAt d id) (fun b port b' _ h hb => hinput b port b' hb h) (hnew kind) h₁
    refine (reports_foldlM (FollowsAt d id)
      (fun b port hb => reports_addOutputPort decl hb.toFollows id port) houtput hb₁).bind
        fun b₂ _ => ?_
    exact reports_foldlM (fun _ => True) (fun b param _ => reports_addParam id b param)
      (fun _ _ _ _ _ => trivial) trivial

/-- The names that are known when a node comes are those of the nodes before it. -/
theorem reports_addNodes {decls : List NodeDeclaration} (hb : b.Follows d) :
    Reports (decls.foldlM Builder.addNode b)
      (NodeDeclaration.violationsFrom d.inputs b.nodeNames decls) := by
  induction decls generalizing b with
  | nil => exact rfl
  | cons decl decls ih =>
    rw [List.foldlM_cons, NodeDeclaration.violationsFrom]
    refine (reports_addNode decl hb).bind fun b' hb' => ?_
    rw [← nodeNames_addNode hb']
    obtain ⟨hgrown, hlabelled, -⟩ := hb.labelled.addNode hb'
    exact ih (hb.extends hgrown hlabelled)

theorem nodeNames_start (d : CircuitDescription) : (start d).nodeNames = [] := by
  refine List.foldlRecOn (motive := fun b : Builder => b.nodeNames = []) _ _ rfl ?_
  intro b hb name _
  exact hb

end Reports

end Builder

/-! ### Descriptions with nothing wrong -/

section WellFormed

theorem bitsViolations_eq_nil_iff (text : String) :
    bitsViolations text = [] ↔ ∀ c ∈ text.toList, c ∈ Bit.letters := by
  unfold bitsViolations
  split <;> simp_all

variable (decl : NodeDeclaration)

theorem NodeDeclaration.sizeViolations_eq_nil_iff (port : PortBinding) :
    decl.sizeViolations port = [] ↔
      ∀ size, port.size = some size → size.toNat = port.nets.length := by
  unfold NodeDeclaration.sizeViolations
  cases port.size with
  | none => simp
  | some size => simp

theorem NodeDeclaration.netViolations_eq_nil_iff (inputs : List String) (name? : Option String) :
    decl.netViolations inputs name? = [] ↔
      ∀ name, name? = some name → name ∈ constantNames → name ∈ inputs := by
  cases name? with
  | none => simp [NodeDeclaration.netViolations]
  | some name => simp [NodeDeclaration.netViolations]

theorem NodeDeclaration.violations_eq_nil_iff (inputs : List String) :
    decl.violations inputs = [] ↔
      (∀ text ∈ decl.bitStrings, ∀ c ∈ text.toList, c ∈ Bit.letters) ∧
      (∀ side, ∀ port ∈ decl.ports side, ∀ size, port.size = some size →
        size.toNat = port.nets.length) ∧
      ∀ port ∈ decl.outputs, ∀ name, some name ∈ port.nets → name ∈ constantNames → name ∈ inputs := by
  simp only [NodeDeclaration.violations, List.append_eq_nil_iff, List.flatMap_eq_nil_iff,
    bitsViolations_eq_nil_iff, sizeViolations_eq_nil_iff, netViolations_eq_nil_iff]
  constructor
  · rintro ⟨⟨⟨hkind, hinputs⟩, houtputs⟩, hparams⟩
    refine ⟨?_, ?_, ?_⟩
    · intro text htext
      rcases List.mem_append.mp htext with htext | htext
      · exact hkind text htext
      · obtain ⟨param, hparam, htext⟩ := List.mem_flatMap.mp htext
        exact hparams param hparam text htext
    · intro side port hport
      cases side with
      | input => exact hinputs port hport
      | output => exact (houtputs port hport).1
    · intro port hport name hname
      exact (houtputs port hport).2 (some name) hname name rfl
  · rintro ⟨hbits, hsizes, hnets⟩
    refine ⟨⟨⟨?_, hsizes .input⟩, ?_⟩, ?_⟩
    · exact fun text htext => hbits text (List.mem_append_left _ htext)
    · intro port hport
      refine ⟨hsizes .output port hport, ?_⟩
      rintro _ hname name rfl
      exact hnets port hport name hname
    · exact fun param hparam text htext =>
        hbits text (List.mem_append_right _ (List.mem_flatMap.mpr ⟨param, hparam, htext⟩))

theorem NodeDeclaration.violationsFrom_eq_nil_iff (inputs earlier : List String)
    (decls : List NodeDeclaration) :
    violationsFrom inputs earlier decls = [] ↔
      (decls.map (·.name)).Nodup ∧ (∀ decl ∈ decls, decl.name ∉ earlier) ∧
        ∀ decl ∈ decls, decl.violations inputs = [] := by
  induction decls generalizing earlier with
  | nil => simp [violationsFrom]
  | cons decl decls ih =>
    have hname : (if decl.name ∈ earlier then [CircuitError.duplicateNode decl.name] else []) = [] ↔
        decl.name ∉ earlier := by
      split <;> simp_all
    rw [violationsFrom, List.append_eq_nil_iff, List.append_eq_nil_iff, hname, ih, List.map_cons,
      List.nodup_cons, List.forall_mem_cons, List.forall_mem_cons, List.mem_map]
    constructor
    · rintro ⟨⟨hearlier, hdecl⟩, hnodup, hnew, hdecls⟩
      refine ⟨⟨?_, hnodup⟩, ⟨hearlier, ?_⟩, hdecl, hdecls⟩
      · rintro ⟨other, hother, hsame⟩
        exact hnew other hother (hsame ▸ List.mem_cons_self)
      · exact fun other hother hmem => hnew other hother (List.mem_cons_of_mem _ hmem)
    · rintro ⟨⟨hfirst, hnodup⟩, ⟨hearlier, hnew⟩, hdecl, hdecls⟩
      refine ⟨⟨hearlier, hdecl⟩, hnodup, ?_, hdecls⟩
      intro other hother hmem
      rcases List.mem_cons.mp hmem with hsame | hmem
      · exact hfirst ⟨other, hother, hsame⟩
      · exact hnew other hother hmem

end WellFormed

namespace CircuitDescription

theorem wellFormed_iff (d : CircuitDescription) : d.WellFormed ↔ d.violations = [] := by
  rw [violations, NodeDeclaration.violationsFrom_eq_nil_iff]
  simp only [NodeDeclaration.violations_eq_nil_iff]
  constructor
  · intro h
    exact ⟨h.distinct, fun _ _ => List.not_mem_nil,
      fun decl hdecl => ⟨h.bits decl hdecl, h.sizes decl hdecl, h.outputs decl hdecl⟩⟩
  · rintro ⟨hdistinct, -, hdecls⟩
    exact ⟨hdistinct, fun decl hdecl => (hdecls decl hdecl).1,
      fun decl hdecl => (hdecls decl hdecl).2.1, fun decl hdecl => (hdecls decl hdecl).2.2⟩

theorem reports_build (d : CircuitDescription) : Reports d.build d.violations := by
  have hnodes : Reports (d.nodes.foldlM Builder.addNode (Builder.start d)) _ :=
    Builder.reports_addNodes (Builder.follows_start d)
  rw [Builder.nodeNames_start] at hnodes
  exact hnodes.bind_ok _

/-- A description becomes a circuit when nothing is wrong with it, and else what is reported is the
first thing that is wrong. -/
theorem build_outcome (d : CircuitDescription) :
    ((∃ circuit, d.build = .ok circuit) ↔ d.WellFormed) ∧
      ∀ e, d.build = .error e ↔ d.violations.head? = some e := by
  have hreports := d.reports_build
  rw [wellFormed_iff]
  cases hbuild : d.build with
  | ok circuit =>
    rw [hbuild] at hreports
    have hnone : d.violations = [] := hreports
    simp [hnone]
  | error e =>
    rw [hbuild] at hreports
    have hfirst : d.violations.head? = some e := hreports
    have hsome : d.violations ≠ [] := by
      intro hnone
      rw [hnone] at hfirst
      cases hfirst
    simp [hfirst, hsome]

/-- Sizes of outputs are looked at before their nets, and a name that comes again before its node. -/
example :
    violations {
      nodes := [
        { name := "n"
          kind := .adder
          outputs := [{ mapping := "o", size := some 2, nets := [some "gnd"] }] },
        { name := "n", kind := .lut 0 "2" }] } =
      [.portSizeMismatch "n" "o" 2 1, .drivesConstant "n" "gnd", .duplicateNode "n",
        .malformedBits "2"] := by
  decide

end CircuitDescription

end CircuitLowering
