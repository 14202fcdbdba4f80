import CircuitLowering.Design.Export
import CircuitLowering.Proofs.Bits

/-!
# The written form of parameters

Bits and texts are written alike, without quotes, and a text that could be taken for bits gets a space at
the end.  That keeps every such text apart from all bits, but not from the text that already ends in that
space, and no bits at all are written as the empty text is.  These are the only values with one written
form (`Export.paramText_eq_iff`).
-/

namespace CircuitLowering.Export

/-! ### Texts that could be taken for bits -/

theorem looksLikeBits_render {bits : List Bit} (h : bits ≠ []) : looksLikeBits (Bits.render bits) = true := by
  unfold looksLikeBits
  rw [Bool.and_eq_true, decide_eq_true_iff, List.all_eq_true, Bits.toList_render]
  constructor
  · intro hempty
    apply h
    rw [← List.reverse_eq_nil_iff, ← List.map_eq_nil_iff (f := Bit.toChar), ← Bits.toList_render, hempty]
    rfl
  · intro c hc
    obtain ⟨b, -, rfl⟩ := List.mem_map.mp hc
    cases b <;> decide

theorem not_looksLikeBits_space (text : String) : looksLikeBits (text ++ " ") = false := by
  unfold looksLikeBits
  rw [String.toList_append, List.all_append]
  simp

/-- No bits are written with a space at the end. -/
theorem render_ne_space (bits : List Bit) (text : String) : Bits.render bits ≠ text ++ " " := by
  intro h
  by_cases hbits : bits = []
  · have hletters := congrArg String.toList h
    rw [hbits, Bits.toList_render, String.toList_append] at hletters
    cases List.append_eq_nil_iff.mp hletters.symm with
    | intro _ hspace => cases hspace
  · have hlooks := looksLikeBits_render hbits
    rw [h, not_looksLikeBits_space] at hlooks
    cases hlooks

theorem append_space_inj {text text' : String} (h : text ++ " " = text' ++ " ") : text = text' := by
  have hletters := congrArg String.toList h
  rw [String.toList_append, String.toList_append, List.append_left_inj] at hletters
  exact String.toList_inj.mp hletters

/-! ### Values with one written form -/

/-- Two different values that are written alike. -/
inductive Confused : Param → Param → Prop
  | empty : Confused (.bits []) (.text "")
  | spaced {text : String} (h : looksLikeBits text = true) : Confused (.text text) (.text (text ++ " "))

theorem paramText_of_confused {v w : Param} (h : Confused v w) : paramText v = paramText w := by
  cases h with
  | empty => rfl
  | spaced h => rw [paramText, if_pos h, paramText, not_looksLikeBits_space, if_neg Bool.false_ne_true]

/-- The written form of bits is that of other bits, or of the empty text for no bits. -/
theorem confused_of_render {bits : List Bit} {text : String} (h : Bits.render bits = paramText (.text text)) :
    Confused (.bits bits) (.text text) := by
  rw [paramText] at h
  split at h
  · exact absurd h (render_ne_space bits text)
  · next hplain =>
    have hbits : bits = [] := by
      by_contra hbits
      rw [← h, looksLikeBits_render hbits] at hplain
      exact hplain rfl
    subst hbits
    rw [← h]
    exact .empty

theorem eq_or_confused_of_texts {text text' : String}
    (h : paramText (.text text) = paramText (.text text')) :
    text = text' ∨ Confused (.text text) (.text text') ∨ Confused (.text text') (.text text) := by
  rw [paramText, paramText] at h
  split at h <;> split at h
  · exact .inl (append_space_inj h)
  · next hlooks _ =>
    subst h
    exact .inr (.inl (.spaced hlooks))
  · next _ hlooks =>
    subst h
    exact .inr (.inr (.spaced hlooks))
  · exact .inl h

/-- Two values have one written form where they are equal, where they are no bits and the empty text, or
where they are a text that looks like bits and that text with a space at the end. -/
theorem paramText_eq_iff (v w : Param) :
    paramText v = paramText w ↔ v = w ∨ Confused v w ∨ Confused w v := by
  constructor
  · intro h
    cases v with
    | bits bits =>
      cases w with
      | bits bits' => exact .inl (congrArg Param.bits (Bits.render_injective h))
      | text text => exact .inr (.inl (confused_of_render h))
    | text text =>
      cases w with
      | bits bits => exact .inr (.inr (confused_of_render h.symm))
      | text text' => exact (eq_or_confused_of_texts h).imp_left (congrArg Param.text)
  · rintro (rfl | h | h)
    · rfl
    · exact paramText_of_confused h
    · exact (paramText_of_confused h).symm

/-- The two ways in which different values come to one written form. -/
theorem paramText_not_injective :
    (paramText (.text "10") = paramText (.text "10 ") ∧ Param.text "10" ≠ .text "10 ") ∧
      paramText (.bits []) = paramText (.text "") ∧ Param.bits [] ≠ .text "" := by
  decide

end CircuitLowering.Export
