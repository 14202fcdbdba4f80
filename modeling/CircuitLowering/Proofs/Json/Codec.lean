import CircuitLowering.Json.Codec
import CircuitLowering.Proofs.Ordered
import CircuitLowering.Proofs.Queries
import CircuitLowering.Proofs.Text.Utf8

/-!
# Codecs that follow their documentation

`Codec.Lawful` collects what the documentation of a codec says, one law for each construct: what the
construct is written as and how that is read, in terms of what the codec does with the parts. Nothing is
said of a whole type, nor of what the codec makes of documents that it would not write.

A shape that `fits` keeps the constructs apart: an optional value in an optional value, two fields of one
name or a field named like the tag would be written but not read back. By induction on the shape,
everything of a fitting shape is read back (`Codec.Lawful.parseBytes?_render`).
-/

namespace CircuitLowering.Json

open Text (utf8)

/-- Whether a document nests at most `depth` deep, holds integers of 64 bits only and repeats no name in
an object. -/
inductive Plain : Nat → Json → Prop where
  | null {depth : Nat} : Plain depth .null
  | bool {depth : Nat} (b : Bool) : Plain depth (.bool b)
  | nat {depth n : Nat} (h : n < 2 ^ 64) : Plain depth (.nat n)
  | int {depth : Nat} {i : Int} (h : i.natAbs < 2 ^ 63) : Plain depth (.int i)
  | text {depth : Nat} (s : String) : Plain depth (.text s)
  | array {depth : Nat} {items : List Json} (h : ∀ item ∈ items, Plain depth item) :
      Plain (depth + 1) (.array items)
  | record {depth : Nat} {fields : List (String × Json)} (hnames : (fields.map Prod.fst).Nodup)
      (h : ∀ field ∈ fields, Plain depth field.2) : Plain (depth + 1) (.record fields)

theorem Plain.mono {depth depth' : Nat} {j : Json} (h : Plain depth j) (hle : depth ≤ depth') :
    Plain depth' j := by
  induction h generalizing depth' with
  | null => exact .null
  | bool b => exact .bool b
  | nat h => exact .nat h
  | int h => exact .int h
  | text s => exact .text s
  | array _ ih =>
    obtain ⟨below, rfl⟩ := Nat.exists_eq_add_of_le' (Nat.le_trans (Nat.le_add_left 1 _) hle)
    exact .array fun item hitem => ih item hitem (by omega)
  | record hnames _ ih =>
    obtain ⟨below, rfl⟩ := Nat.exists_eq_add_of_le' (Nat.le_trans (Nat.le_add_left 1 _) hle)
    exact .record hnames fun field hfield => ih field hfield (by omega)

/-! ### Parts -/

namespace Codec

def writeFields (c : Codec) {α : Type} : Fields α → α → List (String × Json)
  | .done, _ => []
  | .field name shape _ rest, parts => (name, c.write shape parts.1) :: c.writeFields rest parts.2

def writeVariant (c : Codec) {α : Type} : Variants α → α → String × Json
  | .done, a => nomatch a
  | .case name content _, .inl value => (name, c.write content value)
  | .case _ _ rest, .inr other => c.writeVariant rest other

def writeCase (c : Codec) (tag : String) {α : Type} : Cases α → α → List (String × Json)
  | .done, a => nomatch a
  | .empty name _, .inl _ => [(tag, .text name)]
  | .empty _ rest, .inr other => c.writeCase tag rest other
  | .case name fields _, .inl parts => (tag, .text name) :: c.writeFields fields parts
  | .case _ _ rest, .inr other => c.writeCase tag rest other

/-- Fields are looked up by their names; others are passed over. -/
def readFields? (c : Codec) {α : Type} : Fields α → List (String × Json) → Option α
  | .done, _ => some ()
  | .field name shape default? rest, given => do
    let value ← match given.lookup name with
      | some j => c.read? shape j
      | none => default?.or shape.absent?
    return (value, ← c.readFields? rest given)

def readVariant? (c : Codec) {α : Type} : Variants α → String → Json → Option α
  | .done, _, _ => none
  | .case name content rest, given, j =>
    if given = name then (c.read? content j).map .inl else (c.readVariant? rest given j).map .inr

def readCase? (c : Codec) {α : Type} : Cases α → String → List (String × Json) → Option α
  | .done, _, _ => none
  | .empty name rest, given, others =>
    if given = name then some (.inl ()) else (c.readCase? rest given others).map .inr
  | .case name fields rest, given, others =>
    if given = name then (c.readFields? fields others).map .inl
    else (c.readCase? rest given others).map .inr

/-! ### Laws -/

/-- What the documentation of a codec says of the documents that the codec writes. -/
structure Lawful (c : Codec) : Prop where
  /-- A printed document is parsed again. -/
  parse?_print {j : Json} : Plain depthLimit j → c.parse? (utf8 (c.print j)) = some j
  write_text (s : String) : c.write .text s = .text s
  read?_text (s : String) : c.read? .text (.text s) = some s
  write_bool (b : Bool) : c.write .bool b = .bool b
  read?_bool (b : Bool) : c.read? .bool (.bool b) = some b
  write_uint64 (n : UInt64) : c.write .uint64 n = .nat n.toNat
  read?_uint64 (n : UInt64) : c.read? .uint64 (.nat n.toNat) = some n
  write_uint16 (n : UInt16) : c.write .uint16 n = .nat n.toNat
  read?_uint16 (n : UInt16) : c.read? .uint16 (.nat n.toNat) = some n
  write_int32 (i : Int32) : c.write .int32 i = .int i.toInt
  read?_int32 (i : Int32) : c.read? .int32 (.int i.toInt) = some i
  /-- An optional value is written as `null` or as the value, and `null` is read as none. -/
  write_optional {α : Type} (inner : Shape α) (value : Option α) :
    c.write (.optional inner) value = Json.optional (c.write inner) value
  read?_null {α : Type} (inner : Shape α) : c.read? (.optional inner) .null = some none
  read?_some {α : Type} (inner : Shape α) {j : Json} :
    j ≠ .null → c.read? (.optional inner) j = (c.read? inner j).map some
  write_list {α : Type} (item : Shape α) (items : List α) :
    c.write (.list item) items = .array (items.map (c.write item))
  read?_list {α : Type} (item : Shape α) (js : List Json) :
    c.read? (.list item) (.array js) = js.mapM (c.read? item)
  /-- A map keeps the order of its names, both ways. -/
  write_table {α : Type} (value : Shape α) (m : Ordered α) :
    c.write (.table value) m = .record (m.map (c.write value)).entries
  read?_table {α : Type} (value : Shape α) (given : List (String × Json)) :
    c.read? (.table value) (.record given) =
      (given.mapM fun field => (c.read? value field.2).map (field.1, ·)).map Ordered.ofList
  /-- A case without content is written as its name. -/
  write_name {α : Type} (names : List (String × α)) (nameOf : α → String)
    (h : ∀ a, names.lookup (nameOf a) = some a) (a : α) :
    c.write (.name names nameOf h) a = .text (nameOf a)
  read?_name {α : Type} (names : List (String × α)) (nameOf : α → String)
    (h : ∀ a, names.lookup (nameOf a) = some a) (s : String) :
    c.read? (.name names nameOf h) (.text s) = names.lookup s
  /-- A record is an object with its fields in their order. It is read by the names of the fields. -/
  write_record {α β : Type} (fields : Fields β) (parts : α → β) (make : β → α)
    (h : ∀ a, make (parts a) = a) (a : α) :
    c.write (.record fields parts make h) a = .record (c.writeFields fields (parts a))
  read?_record {α β : Type} (fields : Fields β) (parts : α → β) (make : β → α)
    (h : ∀ a, make (parts a) = a) {given : List (String × Json)} :
    (given.map Prod.fst).Nodup →
    c.read? (.record fields parts make h) (.record given) = (c.readFields? fields given).map make
  /-- A case with one value is an object whose one field is named for the case. -/
  write_variant {α β : Type} (cases : Variants β) (parts : α → β) (make : β → α)
    (h : ∀ a, make (parts a) = a) (a : α) :
    c.write (.variant cases parts make h) a = .record [c.writeVariant cases (parts a)]
  read?_variant {α β : Type} (cases : Variants β) (parts : α → β) (make : β → α)
    (h : ∀ a, make (parts a) = a) (name : String) (j : Json) :
    c.read? (.variant cases parts make h) (.record [(name, j)]) =
      (c.readVariant? cases name j).map make
  /-- A tagged case is an object with the name of the case in the tag and the fields of the case after
  it. Where all of these are scalars, they are read as the fields of a record are. -/
  write_tagged {α β : Type} (tag : String) (limit : Nat) (cases : Cases β) (parts : α → β)
    (make : β → α) (h : ∀ a, make (parts a) = a) (a : α) :
    c.write (.tagged tag limit cases parts make h) a = .record (c.writeCase tag cases (parts a))
  read?_tagged {α β : Type} (tag : String) {limit : Nat} (cases : Cases β) (parts : α → β)
    (make : β → α) (h : ∀ a, make (parts a) = a) (name : String) {others : List (String × Json)} :
    0 < limit → (others.map Prod.fst).Nodup → tag ∉ others.map Prod.fst →
    (∀ field ∈ others, Plain 0 field.2) →
    c.read? (.tagged tag limit cases parts make h) (.record ((tag, .text name) :: others)) =
      (c.readCase? cases name others).map make

end Codec

/-! ### Shapes that fit -/

def Variants.names {α : Type} : Variants α → List String
  | .done => []
  | .case name _ rest => name :: rest.names

def Cases.names {α : Type} : Cases α → List String
  | .done => []
  | .empty name rest | .case name _ rest => name :: rest.names

def Shape.isOptional {α : Type} : Shape α → Bool
  | .optional _ => true
  | _ => false

mutual

/-- Whether the values of a shape nest at most `depth` deep and are told apart by what is written. -/
def Shape.fits {α : Type} (depth : Nat) : Shape α → Bool
  | .text | .bool | .uint64 | .uint16 | .int32 | .name _ _ _ => true
  | .optional inner => inner.fits depth && !inner.isOptional
  | .list item =>
    match depth with
    | 0 => false
    | depth + 1 => item.fits depth
  | .table value =>
    match depth with
    | 0 => false
    | depth + 1 => value.fits depth
  | .record fields _ _ _ =>
    match depth with
    | 0 => false
    | depth + 1 => fields.fit depth
  | .variant cases _ _ _ =>
    match depth with
    | 0 => false
    | depth + 1 => cases.fit depth
  | .tagged tag limit cases _ _ _ => decide (0 < depth ∧ 0 < limit) && cases.fit tag

def Fields.fit {α : Type} (depth : Nat) : Fields α → Bool
  | .done => true
  | .field name shape _ rest => decide (name ∉ rest.names) && shape.fits depth && rest.fit depth

def Variants.fit {α : Type} (depth : Nat) : Variants α → Bool
  | .done => true
  | .case name content rest => decide (name ∉ rest.names) && content.fits depth && rest.fit depth

/-- The fields of tagged cases are scalars, since they are read twice. -/
def Cases.fit {α : Type} (tag : String) : Cases α → Bool
  | .done => true
  | .empty name rest => decide (name ∉ rest.names) && rest.fit tag
  | .case name fields rest =>
    decide (name ∉ rest.names) && decide (tag ∉ fields.names) && fields.fit 0 && rest.fit tag

end

/-! ### Everything that fits is read back -/

namespace Codec

variable {c : Codec}

theorem map_fst_writeFields (c : Codec) {α : Type} :
    ∀ (fields : Fields α) (a : α), (c.writeFields fields a).map Prod.fst = fields.names
  | .done, _ => rfl
  | .field _ _ _ rest, parts => congrArg _ (c.map_fst_writeFields rest parts.2)

end Codec

theorem Fields.nodup_names {depth : Nat} {α : Type} :
    ∀ {fields : Fields α}, fields.fit depth = true → fields.names.Nodup
  | .done, _ => List.nodup_nil
  | .field name shape _ rest, h => by
    simp only [fit, Bool.and_eq_true, decide_eq_true_eq] at h
    exact List.nodup_cons.mpr ⟨h.1.1, rest.nodup_names h.2⟩

namespace Codec

variable {c : Codec} {α β : Type} {depth : Nat}

structure Keeps (c : Codec) (depth : Nat) (s : Shape α) : Prop where
  plain (a : α) : (c.write s a).Plain depth
  read (a : α) : c.read? s (c.write s a) = some a

/-- The fields of a record are read back among any others. -/
structure KeepsFields (c : Codec) (depth : Nat) (fields : Fields α) : Prop where
  plain (a : α) : ∀ field ∈ c.writeFields fields a, field.2.Plain depth
  read (a : α) {given : List (String × Json)} : (given.map Prod.fst).Nodup →
    c.writeFields fields a ⊆ given → c.readFields? fields given = some a

structure KeepsVariants (c : Codec) (depth : Nat) (cases : Variants α) : Prop where
  mem_names (a : α) : (c.writeVariant cases a).1 ∈ cases.names
  plain (a : α) : (c.writeVariant cases a).2.Plain depth
  read (a : α) : c.readVariant? cases (c.writeVariant cases a).1 (c.writeVariant cases a).2 = some a

/-- A tagged case is written as its name in the tag and scalars in other fields, which are read back. -/
def KeepsCases (c : Codec) (tag : String) (cases : Cases α) : Prop :=
  ∀ a, ∃ name ∈ cases.names, ∃ others,
    c.writeCase tag cases a = (tag, .text name) :: others ∧
    (others.map Prod.fst).Nodup ∧ tag ∉ others.map Prod.fst ∧ (∀ field ∈ others, field.2.Plain 0) ∧
    c.readCase? cases name others = some a

/-! ### Fields and cases -/

theorem keepsFields_done : c.KeepsFields depth .done where
  plain _ _ hfield := nomatch hfield
  read _ _ _ _ := rfl

theorem keepsFields_field {name : String} {shape : Shape α} {default? : Option α} {rest : Fields β}
    (hshape : c.Keeps depth shape) (hrest : c.KeepsFields depth rest) :
    c.KeepsFields depth (.field name shape default? rest) where
  plain a := by
    rw [writeFields, List.forall_mem_cons]
    exact ⟨hshape.plain a.1, hrest.plain a.2⟩
  read a given hnodup hgiven := by
    rw [writeFields, List.cons_subset] at hgiven
    rw [readFields?, (Ordered.lookup_eq_some_iff hnodup).mpr hgiven.1]
    simp only [hshape.read, hrest.read a.2 hnodup hgiven.2]
    rfl

theorem keepsVariants_done : c.KeepsVariants depth .done where
  mem_names a := nomatch a
  plain a := nomatch a
  read a := nomatch a

theorem keepsVariants_case {name : String} {content : Shape α} {rest : Variants β}
    (hname : name ∉ rest.names) (hcontent : c.Keeps depth content)
    (hrest : c.KeepsVariants depth rest) : c.KeepsVariants depth (.case name content rest) where
  mem_names
    | .inl _ => List.mem_cons_self
    | .inr other => List.mem_cons_of_mem _ (hrest.mem_names other)
  plain
    | .inl value => hcontent.plain value
    | .inr other => hrest.plain other
  read
    | .inl value => by
      rw [writeVariant, readVariant?, if_pos rfl, hcontent.read, Option.map_some]
    | .inr other => by
      have hne : (c.writeVariant rest other).1 ≠ name := fun heq => hname (heq ▸ hrest.mem_names other)
      rw [writeVariant, readVariant?, if_neg hne, hrest.read, Option.map_some]

theorem keepsCases_done (tag : String) : c.KeepsCases tag .done := fun a => nomatch a

/-- The cases after one are read past it, since their names differ from its name. -/
theorem keepsCases_inr {tag name : String} {cases : Cases (α ⊕ β)} {rest : Cases β}
    (hrest : c.KeepsCases tag rest) (hnames : cases.names = name :: rest.names) (hname : name ∉ rest.names)
    (hwrite : ∀ other, c.writeCase tag cases (.inr other) = c.writeCase tag rest other)
    (hread : ∀ given others, given ≠ name →
      c.readCase? cases given others = (c.readCase? rest given others).map .inr) (other : β) :
    ∃ name ∈ cases.names, ∃ others,
      c.writeCase tag cases (.inr other) = (tag, .text name) :: others ∧
      (others.map Prod.fst).Nodup ∧ tag ∉ others.map Prod.fst ∧ (∀ field ∈ others, field.2.Plain 0) ∧
      c.readCase? cases name others = some (.inr other) := by
  obtain ⟨given, hgiven, others, hwritten, hnodup, htag, hplain, hback⟩ := hrest other
  have hne : given ≠ name := fun heq => hname (heq ▸ hgiven)
  refine ⟨given, hnames ▸ List.mem_cons_of_mem _ hgiven, others, (hwrite other).trans hwritten, hnodup,
    htag, hplain, ?_⟩
  rw [hread given others hne, hback, Option.map_some]

theorem keepsCases_empty {tag name : String} {rest : Cases β} (hname : name ∉ rest.names)
    (hrest : c.KeepsCases tag rest) : c.KeepsCases tag (.empty name rest)
  | .inl () => ⟨name, List.mem_cons_self, [], rfl, List.nodup_nil, List.not_mem_nil,
      fun _ hfield => absurd hfield List.not_mem_nil, if_pos rfl⟩
  | .inr other => keepsCases_inr hrest rfl hname (fun _ => rfl)
      (fun _ _ hne => by rw [readCase?, if_neg hne]) other

theorem keepsCases_case {tag name : String} {fields : Fields α} {rest : Cases β}
    (hname : name ∉ rest.names) (htag : tag ∉ fields.names) (hnames : fields.names.Nodup)
    (hfields : c.KeepsFields 0 fields) (hrest : c.KeepsCases tag rest) :
    c.KeepsCases tag (.case name fields rest)
  | .inl parts => by
    have hnodup : ((c.writeFields fields parts).map Prod.fst).Nodup := by rwa [map_fst_writeFields]
    refine ⟨name, List.mem_cons_self, c.writeFields fields parts, rfl, hnodup, ?_, hfields.plain parts, ?_⟩
    · rwa [map_fst_writeFields]
    · rw [readCase?, if_pos rfl, hfields.read parts hnodup (List.Subset.refl _), Option.map_some]
  | .inr other => keepsCases_inr hrest rfl hname (fun _ => rfl)
      (fun _ _ hne => by rw [readCase?, if_neg hne]) other

namespace Lawful

section Constructs

variable (h : c.Lawful)

include h

/-! ### Scalars -/

theorem keeps_text : c.Keeps depth .text where
  plain s := h.write_text s ▸ .text s
  read s := h.write_text s ▸ h.read?_text s

theorem keeps_bool : c.Keeps depth .bool where
  plain b := h.write_bool b ▸ .bool b
  read b := h.write_bool b ▸ h.read?_bool b

theorem keeps_uint64 : c.Keeps depth .uint64 where
  plain n := h.write_uint64 n ▸ .nat n.toNat_lt
  read n := h.write_uint64 n ▸ h.read?_uint64 n

theorem keeps_uint16 : c.Keeps depth .uint16 where
  plain n := h.write_uint16 n ▸ .nat (Nat.lt_trans n.toNat_lt (by decide))
  read n := h.write_uint16 n ▸ h.read?_uint16 n

theorem keeps_int32 : c.Keeps depth .int32 where
  plain i := by
    have hlower := i.le_toInt
    have hupper := i.toInt_lt
    exact h.write_int32 i ▸ .int (by omega)
  read i := h.write_int32 i ▸ h.read?_int32 i

theorem keeps_name (names : List (String × α)) (nameOf : α → String)
    (hnames : ∀ a, names.lookup (nameOf a) = some a) : c.Keeps depth (.name names nameOf hnames) where
  plain a := h.write_name names nameOf hnames a ▸ .text (nameOf a)
  read a := by rw [h.write_name, h.read?_name, hnames]

/-! ### Optional values, lists and maps -/

/-- Only an optional value is written as `null`. -/
theorem write_ne_null {s : Shape α} (hs : s.isOptional = false) (a : α) : c.write s a ≠ .null := by
  cases s with
  | optional inner => cases hs
  | _ =>
    simp only [h.write_text, h.write_bool, h.write_uint64, h.write_uint16, h.write_int32, h.write_list,
      h.write_table, h.write_name, h.write_record, h.write_variant, h.write_tagged]
    exact fun heq => nomatch heq

theorem keeps_optional {inner : Shape α} (hinner : c.Keeps depth inner)
    (hs : inner.isOptional = false) : c.Keeps depth (.optional inner) where
  plain
    | none => h.write_optional inner none ▸ .null
    | some a => h.write_optional inner (some a) ▸ hinner.plain a
  read
    | none => h.write_optional inner none ▸ h.read?_null inner
    | some a => by
      have hread := h.read?_some inner (h.write_ne_null hs a)
      rw [hinner.read, Option.map_some] at hread
      rw [h.write_optional]
      exact hread

theorem keeps_list {item : Shape α} (hitem : c.Keeps depth item) :
    c.Keeps (depth + 1) (.list item) where
  plain items := by
    rw [h.write_list]
    refine .array ?_
    rw [List.forall_mem_map]
    exact fun a _ => hitem.plain a
  read items := by
    rw [h.write_list, h.read?_list, mapM_map_eq_some (g := id) fun a _ => hitem.read a, List.map_id]

theorem keeps_table {value : Shape α} (hvalue : c.Keeps depth value) :
    c.Keeps (depth + 1) (.table value) where
  plain m := by
    rw [h.write_table]
    refine .record (m.map (c.write value)).nodup_names ?_
    rw [Ordered.map, List.forall_mem_map]
    exact fun entry _ => hvalue.plain entry.2
  read m := by
    have hentries : (m.map (c.write value)).entries.mapM
        (fun field => (c.read? value field.2).map (field.1, ·)) = some (m.entries.map id) := by
      refine mapM_map_eq_some fun entry _ => ?_
      rw [hvalue.read, Option.map_some]
      rfl
    rw [h.write_table, h.read?_table, hentries, List.map_id, Option.map_some, Ordered.ofList_entries]

/-! ### Records and cases -/

theorem keeps_record {fields : Fields β} (parts : α → β) (make : β → α)
    (hmake : ∀ a, make (parts a) = a) (hnames : fields.names.Nodup)
    (hfields : c.KeepsFields depth fields) :
    c.Keeps (depth + 1) (.record fields parts make hmake) where
  plain a := by
    rw [h.write_record]
    refine .record ?_ (hfields.plain (parts a))
    rwa [map_fst_writeFields]
  read a := by
    have hnodup : ((c.writeFields fields (parts a)).map Prod.fst).Nodup := by
      rwa [map_fst_writeFields]
    rw [h.write_record, h.read?_record fields parts make hmake hnodup,
      hfields.read (parts a) hnodup (List.Subset.refl _), Option.map_some, hmake]

theorem keeps_variant {cases : Variants β} (parts : α → β) (make : β → α)
    (hmake : ∀ a, make (parts a) = a) (hcases : c.KeepsVariants depth cases) :
    c.Keeps (depth + 1) (.variant cases parts make hmake) where
  plain a := by
    rw [h.write_variant]
    refine .record (List.nodup_singleton _) ?_
    rw [List.forall_mem_singleton]
    exact hcases.plain (parts a)
  read a := by
    rw [h.write_variant]
    refine (h.read?_variant cases parts make hmake _ _).trans ?_
    rw [hcases.read, Option.map_some, hmake]

theorem keeps_tagged {tag : String} {limit : Nat} {cases : Cases β} (parts : α → β) (make : β → α)
    (hmake : ∀ a, make (parts a) = a) (hlimit : 0 < limit) (hcases : c.KeepsCases tag cases) :
    c.Keeps (depth + 1) (.tagged tag limit cases parts make hmake) where
  plain a := by
    obtain ⟨name, -, others, hwrite, hnodup, htag, hplain, -⟩ := hcases (parts a)
    rw [h.write_tagged, hwrite]
    refine .record (List.nodup_cons.mpr ⟨htag, hnodup⟩) ?_
    rw [List.forall_mem_cons]
    exact ⟨.text name, fun field hfield => (hplain field hfield).mono (Nat.zero_le depth)⟩
  read a := by
    obtain ⟨name, -, others, hwrite, hnodup, htag, hplain, hread⟩ := hcases (parts a)
    rw [h.write_tagged, hwrite, h.read?_tagged tag cases parts make hmake name hlimit hnodup htag hplain,
      hread, Option.map_some, hmake]

end Constructs

/-! ### Any shape -/

mutual

theorem keeps (h : c.Lawful) {depth : Nat} {α : Type} : ∀ {s : Shape α}, s.fits depth = true → c.Keeps depth s
  | .text, _ => h.keeps_text
  | .bool, _ => h.keeps_bool
  | .uint64, _ => h.keeps_uint64
  | .uint16, _ => h.keeps_uint16
  | .int32, _ => h.keeps_int32
  | .name names nameOf hnames, _ => h.keeps_name names nameOf hnames
  | .optional inner, hfits => by
    simp only [Shape.fits, Bool.and_eq_true, Bool.not_eq_true'] at hfits
    exact h.keeps_optional (h.keeps hfits.1) hfits.2
  | .list item, hfits => by
    cases depth with
    | zero => cases hfits
    | succ depth => exact h.keeps_list (h.keeps hfits)
  | .table value, hfits => by
    cases depth with
    | zero => cases hfits
    | succ depth => exact h.keeps_table (h.keeps hfits)
  | .record fields parts make hmake, hfits => by
    cases depth with
    | zero => cases hfits
    | succ depth =>
      exact h.keeps_record parts make hmake (Fields.nodup_names hfits) (h.keepsFields hfits)
  | .variant cases parts make hmake, hfits => by
    cases depth with
    | zero => cases hfits
    | succ depth => exact h.keeps_variant parts make hmake (h.keepsVariants hfits)
  | .tagged tag limit cases parts make hmake, hfits => by
    simp only [Shape.fits, Bool.and_eq_true, decide_eq_true_eq] at hfits
    obtain ⟨below, rfl⟩ := Nat.exists_eq_add_of_le' hfits.1.1
    exact h.keeps_tagged parts make hmake hfits.1.2 (h.keepsCases hfits.2)

theorem keepsFields (h : c.Lawful) {depth : Nat} {α : Type} :
    ∀ {fields : Fields α}, fields.fit depth = true → c.KeepsFields depth fields
  | .done, _ => keepsFields_done
  | .field name shape _ rest, hfits => by
    simp only [Fields.fit, Bool.and_eq_true] at hfits
    exact keepsFields_field (h.keeps hfits.1.2) (h.keepsFields hfits.2)

theorem keepsVariants (h : c.Lawful) {depth : Nat} {α : Type} :
    ∀ {cases : Variants α}, cases.fit depth = true → c.KeepsVariants depth cases
  | .done, _ => keepsVariants_done
  | .case name content rest, hfits => by
    simp only [Variants.fit, Bool.and_eq_true, decide_eq_true_eq] at hfits
    exact keepsVariants_case hfits.1.1 (h.keeps hfits.1.2) (h.keepsVariants hfits.2)

theorem keepsCases (h : c.Lawful) {tag : String} {α : Type} :
    ∀ {cases : Cases α}, cases.fit tag = true → c.KeepsCases tag cases
  | .done, _ => keepsCases_done tag
  | .empty name rest, hfits => by
    simp only [Cases.fit, Bool.and_eq_true, decide_eq_true_eq] at hfits
    exact keepsCases_empty hfits.1 (h.keepsCases hfits.2)
  | .case name fields rest, hfits => by
    simp only [Cases.fit, Bool.and_eq_true, decide_eq_true_eq] at hfits
    obtain ⟨⟨⟨hname, htag⟩, hfields⟩, hrest⟩ := hfits
    exact keepsCases_case hname htag (Fields.nodup_names hfields) (h.keepsFields hfields)
      (h.keepsCases hrest)

end

/-- What is rendered by a shape that fits is read back by it. -/
theorem parseBytes?_render (h : c.Lawful) {s : Shape α} (hfits : s.fits depthLimit = true) (a : α) :
    c.parseBytes? s (utf8 (c.render s a)) = some a := by
  have hkeeps := h.keeps hfits
  rw [parseBytes?, render, h.parse?_print (hkeeps.plain a), Option.bind_some, hkeeps.read]

end Lawful

end Codec

end CircuitLowering.Json
