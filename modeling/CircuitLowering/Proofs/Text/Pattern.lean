import CircuitLowering.Text.Pattern

/-!
# What patterns match

`Pattern.Matches` says in which ways a text fits a pattern. What is captured comes from one of these ways
(`matches_of_captures?`), and something is captured whenever there is one (`exists_captures?`).
-/

namespace CircuitLowering.Text.Pattern

/-- A way in which a text fits a pattern, with the parts that are captured. -/
inductive Matches : Pattern → List Char → List (List Char) → Prop where
  | nil : Matches [] [] []
  | one {cs : Charset} {c : Char} {p : Pattern} {text : List Char} {parts : List (List Char)}
      (hc : cs.contains c = true) (h : Matches p text parts) : Matches (.one cs :: p) (c :: text) parts
  | capture {cs : Charset} {taken : List Char} {p : Pattern} {text : List Char}
      {parts : List (List Char)} (hne : taken ≠ []) (htaken : ∀ c ∈ taken, cs.contains c = true)
      (h : Matches p text parts) : Matches (.capture cs :: p) (taken ++ text) (taken :: parts)

variable {cs : Charset} {rest? : List Char → Option (List (List Char))} {taken text : List Char}
  {parts : List (List Char)} {p : Pattern}

theorem of_captureMost? (h : captureMost? cs rest? text = some (taken, parts)) :
    taken ≠ [] ∧ (∀ c ∈ taken, cs.contains c = true) ∧
      ∃ text', text = taken ++ text' ∧ rest? text' = some parts := by
  induction text generalizing taken with
  | nil => cases h
  | cons c text ih =>
    rw [captureMost?] at h
    split at h
    · next hc =>
      split at h
      · next taken' parts' hmore =>
        cases h
        obtain ⟨-, htaken, text', rfl, hrest⟩ := ih hmore
        exact ⟨List.cons_ne_nil _ _, List.forall_mem_cons.mpr ⟨hc, htaken⟩, text', rfl, hrest⟩
      · obtain ⟨parts', hrest, heq⟩ := Option.map_eq_some_iff.mp h
        cases heq
        exact ⟨List.cons_ne_nil _ _, List.forall_mem_singleton.mpr hc, text, rfl, hrest⟩
    · cases h

theorem exists_captureMost? (hne : taken ≠ []) (htaken : ∀ c ∈ taken, cs.contains c = true)
    (h : ∃ parts, rest? text = some parts) : ∃ most, captureMost? cs rest? (taken ++ text) = some most := by
  induction taken with
  | nil => exact absurd rfl hne
  | cons c taken ih =>
    obtain ⟨hc, htaken⟩ := List.forall_mem_cons.mp htaken
    rw [List.cons_append, captureMost?, if_pos hc]
    cases hmore : captureMost? cs rest? (taken ++ text) with
    | some most => exact ⟨_, rfl⟩
    | none =>
      cases taken with
      | nil =>
        obtain ⟨parts, hparts⟩ := h
        exact ⟨([c], parts), congrArg (Option.map ([c], ·)) hparts⟩
      | cons c' taken =>
        obtain ⟨most, hmost⟩ := ih (List.cons_ne_nil _ _) htaken
        rw [hmost] at hmore
        cases hmore

theorem matches_of_captures? (h : p.captures? text = some parts) : Matches p text parts := by
  induction p generalizing text parts with
  | nil =>
    rw [captures?] at h
    split at h
    · next hempty =>
      cases h
      exact hempty ▸ .nil
    · cases h
  | cons part p ih =>
    cases part with
    | one cs =>
      cases text with
      | nil => cases h
      | cons c text =>
        rw [captures?] at h
        split at h
        · next hc => exact .one hc (ih h)
        · cases h
    | capture cs =>
      rw [captures?] at h
      obtain ⟨⟨taken, others⟩, hmost, heq⟩ := Option.map_eq_some_iff.mp h
      cases heq
      obtain ⟨hne, htaken, text', rfl, hrest⟩ := of_captureMost? hmost
      exact .capture hne htaken (ih hrest)

theorem exists_captures? (h : Matches p text parts) : ∃ parts', p.captures? text = some parts' := by
  induction h with
  | nil => exact ⟨[], if_pos rfl⟩
  | one hc _ ih => rwa [captures?, if_pos hc]
  | capture hne htaken _ ih =>
    obtain ⟨most, hmost⟩ := exists_captureMost? hne htaken ih
    exact ⟨_, by rw [captures?, hmost, Option.map_some]⟩

end CircuitLowering.Text.Pattern
