import CircuitLowering.Ordered
import Mathlib.Algebra.GroupWithZero.Nat
import Mathlib.Data.List.Induction
import Mathlib.Data.List.Nodup

/-!
# Entries of insertion-ordered maps

An `Ordered` map is its list of entries, so two maps with the same entries are equal, and what is
looked up is what stands in the list.  Here is what each operation does to that list: a new name goes
to the end, and a known one keeps its place.
-/

namespace CircuitLowering

/-! ### Names in the order in which they come first -/

section EraseDups

variable {α : Type} [DecidableEq α]

/-- A last element counts if it is new. -/
theorem eraseDups_concat (l : List α) (a : α) :
    (l ++ [a]).eraseDups = if a ∈ l then l.eraseDups else l.eraseDups ++ [a] := by
  rw [List.eraseDups_append]
  by_cases h : a ∈ l
  · simp [List.removeAll, h]
  · simp [List.removeAll, h, List.eraseDups_cons]

/-- To append what is new is to keep what comes first. -/
theorem foldl_append_new (l l' : List α) :
    l'.foldl (fun seen a => if a ∈ seen then seen else seen ++ [a]) l.eraseDups =
      (l ++ l').eraseDups := by
  induction l' generalizing l with
  | nil => simp
  | cons a l' ih =>
    have hstep : (if a ∈ l.eraseDups then l.eraseDups else l.eraseDups ++ [a]) =
        (l ++ [a]).eraseDups := by
      simp only [eraseDups_concat, List.mem_eraseDups]
    rw [List.foldl_cons, hstep, ih, List.append_assoc, List.singleton_append]

theorem eraseDups_eraseDups (l : List α) : l.eraseDups.eraseDups = l.eraseDups := by
  induction l using List.reverseRecOn with
  | nil => rfl
  | append_singleton l a ih =>
    rw [eraseDups_concat]
    split
    · exact ih
    · next h => rw [eraseDups_concat, ih, if_neg (mt List.mem_eraseDups.mp h)]

/-- Elements that are there already make no difference. -/
theorem eraseDups_append_of_subset {l l' : List α} (h : l' ⊆ l) :
    (l ++ l').eraseDups = l.eraseDups := by
  have hnothing : l'.removeAll l = [] := by
    simpa [List.removeAll, List.filter_eq_nil_iff] using fun a ha => h ha
  rw [List.eraseDups_append, hnothing, List.eraseDups_nil, List.append_nil]

end EraseDups

/-- Of values that some elements give, that of the last element counts, if it gives one. -/
theorem getLast?_filterMap_concat {α β : Type} (f : α → Option β) (l : List α) (a : α) :
    ((l ++ [a]).filterMap f).getLast? = (f a).or (l.filterMap f).getLast? := by
  rw [List.filterMap_append, List.getLast?_append]
  cases h : f a <;> simp [h]

/-- Nothing is found under a key just where no entry has it. -/
theorem lookup_eq_none_iff_notMem {α β : Type} [DecidableEq α] {entries : List (α × β)} {key : α} :
    entries.lookup key = none ↔ key ∉ entries.map Prod.fst := by
  simp only [List.lookup_eq_none_iff, bne_iff_ne, List.mem_map, not_exists, not_and]
  exact ⟨fun h entry hentry hkey => h entry hentry hkey.symm, fun h entry hentry hkey => h entry hentry hkey.symm⟩

namespace Ordered

variable {α β : Type} {m m' : Ordered α} {name : String} {value : α}

/-! ### Looking up -/

theorem ext (h : m.entries = m'.entries) : m = m' := by
  cases m
  cases m'
  cases h
  rfl

theorem get?_eq_none_iff : m.get? name = none ↔ name ∉ m.names := lookup_eq_none_iff_notMem

theorem contains_iff (m : Ordered α) (name : String) : m.contains name = true ↔ name ∈ m.names := by
  rw [contains, Option.isSome_iff_ne_none, ne_eq, get?_eq_none_iff, not_not]

/-- The value of a name in a list is that of its only entry. -/
theorem lookup_eq_some_iff {entries : List (String × α)} (h : (entries.map Prod.fst).Nodup) :
    entries.lookup name = some value ↔ (name, value) ∈ entries := by
  constructor
  · intro hlookup
    obtain ⟨before, after, rfl, -⟩ := List.lookup_eq_some_iff.mp hlookup
    simp
  · intro hmem
    obtain ⟨before, after, rfl⟩ := List.append_of_mem hmem
    refine List.lookup_eq_some_iff.mpr ⟨before, after, rfl, ?_⟩
    intro entry hentry
    rw [List.map_append, List.map_cons] at h
    have hne := (List.nodup_append.mp h).2.2 entry.1 (List.mem_map_of_mem hentry) name
      List.mem_cons_self
    exact bne_iff_ne.mpr (Ne.symm hne)

theorem get?_eq_some_iff : m.get? name = some value ↔ (name, value) ∈ m.entries :=
  lookup_eq_some_iff m.nodup_names

/-! ### Writing -/

theorem write_of_notMem {entries : List (String × α)} (h : name ∉ entries.map Prod.fst) :
    write name value entries = entries ++ [(name, value)] := by
  induction entries with
  | nil => rfl
  | cons entry rest ih =>
    rw [List.map_cons, List.mem_cons, not_or] at h
    rw [write, if_neg (Ne.symm h.1), ih h.2, List.cons_append]

theorem write_write (name : String) (value value' : α) (entries : List (String × α)) :
    write name value' (write name value entries) = write name value' entries := by
  induction entries with
  | nil => simp [write]
  | cons entry rest ih =>
    by_cases h : entry.1 = name
    · simp [write, h]
    · simp [write, h, ih]

/-- What is made of the entries does not change where the same is made of the new value. -/
theorem filterMap_write {entries : List (String × α)} {old : α} (f : String × α → Option β)
    (hold : entries.lookup name = some old) (hsame : f (name, value) = f (name, old)) :
    (write name value entries).filterMap f = entries.filterMap f := by
  induction entries with
  | nil => cases hold
  | cons entry rest ih =>
    obtain ⟨key, first⟩ := entry
    by_cases h : key = name
    · subst h
      rw [List.lookup_cons_self, Option.some.injEq] at hold
      rw [write, if_pos rfl, List.filterMap_cons, List.filterMap_cons, hsame, hold]
    · have hn : (name == key) = false := beq_eq_false_iff_ne.mpr (Ne.symm h)
      rw [List.lookup_cons, hn] at hold
      rw [write, if_neg h, List.filterMap_cons, List.filterMap_cons, ih hold]

theorem entries_insert_of_notMem (h : name ∉ m.names) (value : α) :
    (m.insert name value).entries = m.entries ++ [(name, value)] :=
  write_of_notMem h

/-- To write what is there already changes nothing. -/
theorem insert_of_get? (h : m.get? name = some value) : m.insert name value = m := by
  refine ext ?_
  have hsame := filterMap_write some h rfl
  rwa [List.filterMap_some, List.filterMap_some] at hsame

/-- The last value that is written counts. -/
theorem insert_insert (m : Ordered α) (name : String) (value value' : α) :
    (m.insert name value).insert name value' = m.insert name value' :=
  ext (write_write name value value' m.entries)

theorem names_insert_of_notMem (h : name ∉ m.names) (value : α) :
    (m.insert name value).names = m.names ++ [name] := by
  rw [names_insert, if_neg h]

/-- Names that are new and distinct stay new when the first of them has come in. -/
theorem notMem_append_of_nodup {items : List β} {first : β} {key : β → String} {names : List String}
    (hnodup : key first ∉ items.map key) (hnew : ∀ item ∈ first :: items, key item ∉ names) :
    ∀ item ∈ items, key item ∉ names ++ [key first] := by
  intro item hitem
  rw [List.mem_append, List.mem_singleton, not_or]
  refine ⟨hnew item (List.mem_cons_of_mem _ hitem), ?_⟩
  intro hname
  exact hnodup (hname ▸ List.mem_map_of_mem hitem)

/-- New names go to the end in the order in which they are written. -/
theorem entries_foldl_insert {pairs : List (String × α)} (hnodup : (pairs.map Prod.fst).Nodup)
    (hnew : ∀ pair ∈ pairs, pair.1 ∉ m.names) :
    (pairs.foldl (fun m pair => m.insert pair.1 pair.2) m).entries = m.entries ++ pairs := by
  induction pairs generalizing m with
  | nil => exact (List.append_nil _).symm
  | cons pair pairs ih =>
    rw [List.map_cons, List.nodup_cons] at hnodup
    have hpair : pair.1 ∉ m.names := hnew pair List.mem_cons_self
    rw [List.foldl_cons, ih hnodup.2, entries_insert_of_notMem hpair, List.append_assoc]
    · rfl
    · rw [names_insert_of_notMem hpair]
      exact notMem_append_of_nodup hnodup.1 hnew

theorem ofList_entries (m : Ordered α) : ofList m.entries = m :=
  ext (entries_foldl_insert m.nodup_names fun _ _ => List.not_mem_nil)

/-- Writing takes the old value out of a sum over the values and puts the new one in. -/
theorem sum_write (f : α → Nat) (name : String) (value : α) (entries : List (String × α)) :
    ((write name value entries).map fun entry => f entry.2).sum + ((entries.lookup name).map f).getD 0 =
      (entries.map fun entry => f entry.2).sum + f value := by
  induction entries with
  | nil => simp [write]
  | cons entry rest ih =>
    obtain ⟨key, old⟩ := entry
    by_cases h : key = name
    · subst h
      simp only [write, if_true, List.lookup_cons_self, List.map_cons, List.sum_cons, Option.map_some,
        Option.getD_some]
      omega
    · have hn : (name == key) = false := beq_eq_false_iff_ne.mpr (Ne.symm h)
      simp only [write, if_neg h, List.lookup_cons, hn, List.map_cons, List.sum_cons]
      omega

/-! ### Changing values -/

/-- A name that has just come in is changed alone. -/
theorem entries_modify_insert (h : name ∉ m.names) (value : α) (f : α → α) :
    ((m.insert name value).modify name f).entries = m.entries ++ [(name, f value)] := by
  have hold : m.entries.map (fun entry => (entry.1, if entry.1 = name then f entry.2 else entry.2)) =
      m.entries := by
    refine (List.map_congr_left ?_).trans (List.map_id _)
    intro entry hentry
    have hne : entry.1 ≠ name := fun hname => h (hname ▸ List.mem_map_of_mem hentry)
    rw [if_neg hne]
    rfl
  unfold modify
  dsimp only
  rw [entries_insert_of_notMem h, List.map_append, hold, List.map_singleton, if_pos rfl]

theorem names_modify (m : Ordered α) (name : String) (f : α → α) : (m.modify name f).names = m.names := by
  rw [names, modify, List.map_map]
  rfl

theorem get?_modify_self (m : Ordered α) (name : String) (f : α → α) :
    (m.modify name f).get? name = (m.get? name).map f := by
  unfold modify get?
  dsimp only
  generalize m.entries = entries
  induction entries with
  | nil => rfl
  | cons entry entries ih =>
    rw [List.map_cons, List.lookup_cons, List.lookup_cons]
    by_cases h : name = entry.1
    · rw [beq_iff_eq.mpr h, if_pos h.symm]
      rfl
    · rw [beq_eq_false_iff_ne.mpr h]
      exact ih

theorem get?_modify_of_ne (m : Ordered α) {other : String} (h : other ≠ name) (f : α → α) :
    (m.modify name f).get? other = m.get? other := by
  apply Option.ext
  intro value
  rw [get?_eq_some_iff, get?_eq_some_iff, modify, List.mem_map]
  constructor
  · rintro ⟨entry, hentry, hsame⟩
    obtain ⟨hname, hvalue⟩ := Prod.mk.inj hsame
    rw [if_neg (hname ▸ h)] at hvalue
    rwa [← hname, ← hvalue]
  · intro hentry
    exact ⟨(other, value), hentry, by rw [if_neg h]⟩

theorem names_mapScan {σ : Type} (step : σ → α → β × σ) (state : σ) (m : Ordered α) :
    (m.mapScan step state).names = m.names :=
  map_fst_scan step state m.entries

/-- A value that every step keeps stays as it is. -/
theorem get?_mapScan {σ : Type} {step : σ → α → α × σ} {state : σ} (hkept : ∀ state, (step state value).1 = value)
    (h : m.get? name = some value) : (m.mapScan step state).get? name = some value := by
  rw [get?_eq_some_iff] at h ⊢
  unfold mapScan
  dsimp only
  generalize m.entries = entries at h
  induction entries generalizing state with
  | nil => cases h
  | cons entry entries ih =>
    rw [scan]
    rcases List.mem_cons.mp h with rfl | h
    · rw [hkept]
      exact List.mem_cons_self
    · exact List.mem_cons_of_mem _ (ih h)

end Ordered

end CircuitLowering
