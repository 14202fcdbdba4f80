import CircuitLowering.Proofs.Json.Codec
import CircuitLowering.Proofs.Json.Reading

/-!
# The standard codec is lawful

The laws of writing hold by definition. For the reading of records the fields of an object, which are
taken in the declared order, are compared with a look-up by name; for tagged cases also what is read
twice with what is read once, which makes no difference to scalars.
-/

namespace CircuitLowering.Json

/-! ### Plain documents -/

theorem Plain.writable {depth : Nat} {j : Json} (h : Plain depth j) : Writable j := by
  induction h with
  | null => exact .null
  | bool b => exact .bool b
  | @nat _ n => exact .number (Number.isInteger_ofNat n)
  | @int _ i => exact .number (Number.isInteger_ofInt i)
  | text s => exact .text s
  | array _ ih => exact .array ih
  | record _ _ ih => exact .record ih

theorem isReadable_of_plain {j : Json} (h : Plain 0 j) (depth : Nat) : j.isReadable depth = true := by
  generalize hflat : 0 = flat at h
  cases h with
  | null | bool => rw [isReadable]
  | nat hn =>
    rw [nat, isReadable]
    exact Number.inRange_of_lt hn
  | @int _ i hi =>
    rw [int, isReadable]
    exact Number.inRange_of_lt (n := i.natAbs) (Nat.lt_trans hi (by decide))
  | text s =>
    rw [text, isReadable]
    rfl
  | array | record => cases hflat

theorem isReadable_record {depth : Nat} {fields : List (String × Json)}
    (h : ∀ f ∈ fields, f.2.isReadable depth = true) : (record fields).isReadable (depth + 1) = true := by
  rw [record, isReadable]
  induction fields with
  | nil => rfl
  | cons f fields ih =>
    obtain ⟨hf, hfields⟩ := List.forall_mem_cons.mp h
    rw [List.map_cons, fieldsReadable, hf, ih hfields]
    rfl

/-! ### Numbers -/

theorem natBelow?_nat {n bound : Nat} (h : n < bound) : (nat n).natBelow? bound = some n := by
  have hn : (0 : Int) ≤ n ∧ (n : Int) < bound := ⟨Int.natCast_nonneg n, Int.ofNat_lt.mpr h⟩
  change ((Number.ofNat n).toInt?.bind fun i => if 0 ≤ i ∧ i < bound then some i.toNat else none) = some n
  rw [Number.toInt?_ofNat, Option.bind_some, if_pos hn, Int.toNat_natCast]

theorem uint64?_nat (n : UInt64) : (nat n.toNat).uint64? = some n := by
  rw [uint64?, natBelow?_nat n.toNat_lt, Option.map_some, UInt64.ofNat_toNat]

theorem uint16?_nat (n : UInt16) : (nat n.toNat).uint16? = some n := by
  rw [uint16?, natBelow?_nat n.toNat_lt, Option.map_some, UInt16.ofNat_toNat]

theorem int32?_int (i : Int32) : (int i.toInt).int32? = some i := by
  have hbounds : -2147483648 ≤ i.toInt ∧ i.toInt ≤ 2147483647 := ⟨i.le_toInt, i.toInt_le⟩
  change ((Number.ofInt i.toInt).toInt?.bind fun i =>
    if -2147483648 ≤ i ∧ i ≤ 2147483647 then some (Int32.ofInt i) else none) = some i
  rw [Number.toInt?_ofInt, Option.bind_some, if_pos hbounds, Int32.ofInt_toInt]

/-! ### Fields -/

section Fields

variable {given : List (String × Json)}

theorem namedFields?_record (given : List (String × Json)) :
    (record given).namedFields? = some given := by
  have hnames : (given.map fun f => (some f.1, f.2)).mapM
      (fun f : Option String × Json => f.1.map (·, f.2)) = some (given.map id) :=
    mapM_map_eq_some fun _ _ => rfl
  rwa [List.map_id] at hnames

/-- An object of distinct names holds what is looked up. -/
theorem field?_eq_lookup (h : (given.map Prod.fst).Nodup) (name : String) :
    field? given name = some (given.lookup name) := by
  induction given with
  | nil => rfl
  | cons f given ih =>
    rw [List.map_cons, List.nodup_cons] at h
    have hrest := ih h.2
    rw [field?] at hrest ⊢
    by_cases hf : f.1 = name
    · have hnone : (given.filter fun f => f.1 = name) = [] := by
        rw [List.filter_eq_nil_iff]
        intro f' hf' hsame
        exact h.1 (hf.trans (of_decide_eq_true hsame).symm ▸ List.mem_map_of_mem hf')
      rw [List.filter_cons_of_pos (by simpa using hf), hnone, ← hf, List.lookup_cons_self]
    · rw [List.filter_cons_of_neg (by simpa using hf), hrest, List.lookup_cons,
        beq_eq_false_iff_ne.mpr (Ne.symm hf)]

theorem fields?_record (h : (given.map Prod.fst).Nodup) (names : List String) :
    (record given).fields? names = some (names.map (given.lookup ·)) := by
  have hfields : (names.map id).mapM (field? given) = some (names.map (given.lookup ·)) :=
    mapM_map_eq_some fun name _ => field?_eq_lookup h name
  rw [List.map_id] at hfields
  change ((record given).namedFields?.bind fun given => names.mapM (field? given)) = _
  rw [namedFields?_record, Option.bind_some, hfields]

/-- It makes no difference to scalars whether they are read once or twice. -/
theorem Shape.read?_kept {j : Json} (hj : Plain 0 j) :
    ∀ {α : Type} (s : Shape α), s.read? true j = s.read? false j
  | _, .optional inner => by
    have hinner := read?_kept hj inner
    cases j with
    | null => rfl
    | _ => exact congrArg (Option.map some) hinner
  | _, .list item | _, .table value | _, .name names _ _ | _, .record fields _ _ _
  | _, .variant cases _ _ _ => by
    generalize hflat : 0 = flat at hj
    cases hj with
    | array | record => cases hflat
    | _ => rfl
  | _, .text | _, .bool | _, .uint64 | _, .uint16 | _, .int32 | _, .tagged _ _ _ _ _ _ => rfl

/-- Fields in the declared order are those that are looked up by their names. -/
theorem Fields.read?_lookup {kept : Bool}
    (hkept : ∀ field ∈ given, ∀ {α : Type} (s : Shape α), s.read? kept field.2 = s.read? false field.2) :
    ∀ {α : Type} (fields : Fields α), fields.read? kept (fields.names.map (given.lookup ·)) =
      Codec.standard.readFields? fields given
  | _, .done => rfl
  | _, .field name shape default? rest => by
    have hrest := read?_lookup hkept rest
    rw [names, List.map_cons, Fields.read?, Codec.readFields?, List.head?_cons, List.tail_cons, hrest]
    cases hlookup : given.lookup name with
    | none => rfl
    | some j =>
      obtain ⟨before, after, hgiven, -⟩ := List.lookup_eq_some_iff.mp hlookup
      have hj := hkept (name, j) (by rw [hgiven]; simp) shape
      dsimp only at hj
      rw [Option.join_some]
      dsimp only
      rw [hj]
      rfl

end Fields

namespace Codec

/-! ### Parts -/

theorem writeFields_standard {α : Type} :
    ∀ (fields : Fields α) (a : α), standard.writeFields fields a = fields.write a
  | .done, _ => rfl
  | .field _ _ _ rest, parts => congrArg _ (writeFields_standard rest parts.2)

theorem writeVariant_standard {α : Type} :
    ∀ (cases : Variants α) (a : α), standard.writeVariant cases a = cases.write a
  | .done, a => nomatch a
  | .case _ _ _, .inl _ => rfl
  | .case _ _ rest, .inr other => writeVariant_standard rest other

theorem writeCase_standard (tag : String) {α : Type} :
    ∀ (cases : Cases α) (a : α), standard.writeCase tag cases a = cases.write tag a
  | .done, a => nomatch a
  | .empty _ _, .inl _ => rfl
  | .empty _ rest, .inr other | .case _ _ rest, .inr other => writeCase_standard tag rest other
  | .case _ fields _, .inl parts => congrArg _ (writeFields_standard fields parts)

theorem readVariant?_standard {α : Type} (name : String) (j : Json) :
    ∀ cases : Variants α, cases.read? false name j = standard.readVariant? cases name j
  | .done => rfl
  | .case given content rest => by
    rw [Variants.read?, readVariant?, readVariant?_standard name j rest]
    rfl

/-- The fields of a tagged case are read as those of a record where they are scalars. -/
theorem readCase?_standard {name : String} {others : List (String × Json)}
    (hnodup : (others.map Prod.fst).Nodup) (hplain : ∀ field ∈ others, Plain 0 field.2) {α : Type} :
    ∀ cases : Cases α, cases.read? name (record others) = standard.readCase? cases name others
  | .done => rfl
  | .empty given rest => by
    rw [Cases.read?, readCase?, readCase?_standard hnodup hplain rest]
    rfl
  | .case given fields rest => by
    have hfields : fields.read? true (fields.names.map (others.lookup ·)) = standard.readFields? fields others :=
      fields.read?_lookup fun field hfield _ s => s.read?_kept (hplain field hfield)
    rw [Cases.read?, readCase?, readCase?_standard hnodup hplain rest, fields?_record hnodup,
      Option.bind_some, hfields]

theorem tagged?_record {tag name : String} {others : List (String × Json)}
    (htag : tag ∉ others.map Prod.fst) :
    (record ((tag, .text name) :: others)).tagged? tag = some (name, record others) := by
  have hnone : (others.map fun f => (some f.1, f.2)).filter (·.1 = some tag) = [] := by
    rw [List.filter_eq_nil_iff, List.forall_mem_map]
    intro f hf hsame
    exact htag (Option.some.inj (of_decide_eq_true hsame) ▸ List.mem_map_of_mem hf)
  have hothers : (others.map fun f => (some f.1, f.2)).filter (·.1 ≠ some tag) =
      others.map fun f => (some f.1, f.2) := by
    rw [List.filter_eq_self, List.forall_mem_map]
    intro f hf
    exact decide_eq_true fun hsame => htag (Option.some.inj hsame ▸ List.mem_map_of_mem hf)
  simp only [record, tagged?, List.map_cons]
  rw [List.filter_cons_of_pos (by simp), List.filter_cons_of_neg (by simp), hnone, hothers]
  rfl

/-! ### The laws -/

theorem read?_standard {α : Type} (s : Shape α) (j : Json) : standard.read? s j = s.read? false j := rfl

theorem read?_table_standard {α : Type} (value : Shape α) (given : List (String × Json)) :
    standard.read? (.table value) (.record given) =
      (given.mapM fun field => (standard.read? value field.2).map (field.1, ·)).map Ordered.ofList := by
  rw [read?_standard, Shape.read?, namedFields?_record]
  change ((given.mapM fun field => (value.read? false field.2).map (field.1, ·)).bind fun entries =>
    some (Ordered.ofList entries)) = _
  rw [Option.map_eq_bind]
  rfl

theorem read?_record_standard {α β : Type} (fields : Fields β) (parts : α → β) (make : β → α)
    (hmake : ∀ a, make (parts a) = a) {given : List (String × Json)}
    (hnodup : (given.map Prod.fst).Nodup) :
    standard.read? (.record fields parts make hmake) (.record given) =
      (standard.readFields? fields given).map make := by
  rw [read?_standard, Shape.read?, fields?_record hnodup, Option.bind_some, fields.read?_lookup fun _ _ _ _ => rfl]

theorem read?_variant_standard {α β : Type} (cases : Variants β) (parts : α → β) (make : β → α)
    (hmake : ∀ a, make (parts a) = a) (name : String) (j : Json) :
    standard.read? (.variant cases parts make hmake) (.record [(name, j)]) =
      (standard.readVariant? cases name j).map make := by
  rw [read?_standard, Shape.read?, ← readVariant?_standard]
  rfl

theorem read?_tagged_standard {α β : Type} (tag : String) {limit : Nat} (cases : Cases β)
    (parts : α → β) (make : β → α) (hmake : ∀ a, make (parts a) = a) (name : String)
    {others : List (String × Json)} (hlimit : 0 < limit) (hnodup : (others.map Prod.fst).Nodup)
    (htag : tag ∉ others.map Prod.fst) (hplain : ∀ field ∈ others, Plain 0 field.2) :
    standard.read? (.tagged tag limit cases parts make hmake) (.record ((tag, .text name) :: others)) =
      (standard.readCase? cases name others).map make := by
  obtain ⟨below, rfl⟩ := Nat.exists_eq_add_of_le' hlimit
  have hreadable : (record ((tag, .text name) :: others)).isReadable (below + 1) = true := by
    refine isReadable_record ?_
    rw [List.forall_mem_cons]
    exact ⟨isReadable_of_plain (.text name) below, fun field hfield =>
      isReadable_of_plain (hplain field hfield) below⟩
  rw [read?_standard, Shape.read?, if_pos hreadable, tagged?_record htag, Option.bind_some,
    readCase?_standard hnodup hplain]

theorem lawful_standard : standard.Lawful where
  parse?_print hj := parseBytes?_compact hj.writable
  write_text _ := rfl
  read?_text _ := rfl
  write_bool _ := rfl
  read?_bool _ := rfl
  write_uint64 _ := rfl
  read?_uint64 n := by rw [read?_standard, Shape.read?, uint64?_nat]
  write_uint16 _ := rfl
  read?_uint16 n := by rw [read?_standard, Shape.read?, uint16?_nat]
  write_int32 _ := rfl
  read?_int32 i := by rw [read?_standard, Shape.read?, int32?_int]
  write_optional _ _ := rfl
  read?_null _ := rfl
  read?_some _ j hj := by
    cases j with
    | null => exact absurd rfl hj
    | _ => rfl
  write_list _ _ := rfl
  read?_list _ _ := rfl
  write_table _ _ := rfl
  read?_table := read?_table_standard
  write_name _ _ _ _ := rfl
  read?_name _ _ _ _ := rfl
  write_record fields parts _ _ a := congrArg record (writeFields_standard fields (parts a)).symm
  read?_record := read?_record_standard
  write_variant cases parts _ _ a :=
    congrArg (fun case => record [case]) (writeVariant_standard cases (parts a)).symm
  read?_variant := read?_variant_standard
  write_tagged tag _ cases parts _ _ a :=
    congrArg record (writeCase_standard tag cases (parts a)).symm
  read?_tagged := read?_tagged_standard

end Codec

end CircuitLowering.Json
