import CircuitLowering.Json.Reader
import CircuitLowering.Proofs.Json.Lexing

/-!
# Written values are read back

The reader puts the tokens of a value together to that value, whatever arrays and objects are still open
around it (`Reader.reads_tokens`).  So a value is read back from its compact form (`parseBytes?_compact`).
-/

namespace CircuitLowering.Json

open Text (utf8)

namespace Reader

variable {rest : List Token} {stack : List Frame}

/-- Whether the tokens are put together to the value wherever a value is due. -/
def Reads (ts : List Token) (j : Json) : Prop :=
  ∀ first stack rest, run? (.needValue first stack) (ts ++ rest) = run? (.complete j stack) rest

/-- Items that are put together one after the other, with commas between them, complete an array. -/
theorem run?_items {items : List Json} (h : ∀ item ∈ items, Reads item.tokens item) {item : Json}
    (hitem : Reads item.tokens item) (before : List Json) (first : Bool) (stack : List Frame)
    (rest : List Token) :
    run? (.needValue first (.array before :: stack))
        ([.comma].intercalate ((item :: items).map tokens) ++ .arrayClose :: rest) =
      run? (.complete (.array (before.reverse ++ item :: items)) stack) rest := by
  induction items generalizing item before first with
  | nil =>
    rw [List.map_singleton, List.intercalate_singleton, hitem]
    change run? (.complete (.array (item :: before).reverse) stack) rest = _
    rw [List.reverse_cons]
  | cons next items ih =>
    obtain ⟨hnext, hitems⟩ := List.forall_mem_cons.mp h
    rw [List.map_cons, List.map_cons, List.intercalate_cons_cons, List.append_assoc, List.append_assoc,
      hitem]
    refine (ih hitems hnext (item :: before) false).trans ?_
    rw [List.reverse_cons, List.append_assoc, List.singleton_append]

/-- Fields that are put together one after the other, with commas between them, complete an object. -/
theorem run?_fields {fields : List (String × Json)} (h : ∀ f ∈ fields, Reads f.2.tokens f.2)
    {f : String × Json} (hf : Reads f.2.tokens f.2) (before : List (Option String × Json)) (first : Bool)
    (stack : List Frame) (rest : List Token) :
    run? (.needName first before stack)
        ([.comma].intercalate ((f :: fields).map namedTokens) ++ .objectClose :: rest) =
      run? (.complete (.object (before.reverse ++ (f :: fields).map fun f => (some f.1, f.2))) stack)
        rest := by
  have hfield (f : String × Json) (hf : Reads f.2.tokens f.2) (before : List (Option String × Json))
      (first : Bool) (rest : List Token) :
      run? (.needName first before stack) (namedTokens f ++ rest) =
        run? (.complete f.2 (.object before (some f.1) :: stack)) rest := by
    have hstep : run? (.needName first before stack) (namedTokens f ++ rest) =
        run? (.needValue false (.object before (some f.1) :: stack)) (f.2.tokens ++ rest) := by
      cases first <;> rfl
    rw [hstep, hf]
  induction fields generalizing f before first with
  | nil =>
    rw [List.map_singleton, List.intercalate_singleton, hfield f hf]
    change run? (.complete (.object ((some f.1, f.2) :: before).reverse) stack) rest = _
    rw [List.reverse_cons]
    rfl
  | cons next fields ih =>
    obtain ⟨hnext, hfields⟩ := List.forall_mem_cons.mp h
    rw [List.map_cons, List.map_cons, List.intercalate_cons_cons, List.append_assoc, List.append_assoc,
      hfield f hf]
    refine (ih hfields hnext ((some f.1, f.2) :: before) false).trans ?_
    rw [List.reverse_cons, List.append_assoc, List.singleton_append]
    rfl

/-- The tokens of a value are put together to the value. -/
theorem reads_tokens {j : Json} (hj : Writable j) : Reads j.tokens j := by
  induction hj with
  | null | bool | number | text => exact fun _ _ _ => rfl
  | @array items _ ih =>
    intro first stack rest
    rw [tokens, itemTokens_eq, List.cons_append, List.append_assoc, List.singleton_append]
    cases items with
    | nil => rfl
    | cons item items =>
      obtain ⟨hitem, hitems⟩ := List.forall_mem_cons.mp ih
      exact run?_items hitems hitem [] true stack rest
  | @record fields _ ih =>
    intro first stack rest
    rw [tokens_record, List.cons_append, List.append_assoc, List.singleton_append]
    cases fields with
    | nil => rfl
    | cons f fields =>
      obtain ⟨hf, hfields⟩ := List.forall_mem_cons.mp ih
      exact run?_fields hfields hf [] true stack rest

end Reader

/-- A value is read back from its compact form. -/
theorem parseBytes?_compact {j : Json} (hj : Writable j) : parseBytes? (utf8 j.compact) = some j := by
  have hread := Reader.reads_tokens hj false [] []
  rw [List.append_nil] at hread
  rw [parseBytes?, tokens?_compact hj, Option.bind_some, hread]
  rfl

end CircuitLowering.Json
