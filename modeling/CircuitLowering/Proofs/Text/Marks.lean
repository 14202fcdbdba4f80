/-!
# Lists cut at marks

Where two lists are equal, their beginnings before the first mark are equal, and so is what follows
(`append_inj_of_marks`).  A list of blocks that each end in their only mark can therefore be told from
what the blocks are run together to (`flatMap_append_inj`).  Texts are cut so into lines, lines into
words, and the lines of a design into those of its modules, wires and cells.
-/

namespace CircuitLowering.Text

variable {α β γ δ : Type} {p : α → Bool} {a b r r' : List α}

theorem append_inj_of_marks (ha : ∀ x ∈ a, p x = false) (hb : ∀ x ∈ b, p x = false)
    (hr : ∀ x ∈ r.head?, p x = true) (hr' : ∀ x ∈ r'.head?, p x = true) (h : a ++ r = b ++ r') :
    a = b ∧ r = r' := by
  induction a generalizing b with
  | nil =>
    cases b with
    | nil => exact ⟨rfl, h⟩
    | cons y b =>
      rw [List.nil_append] at h
      have hmark := hr y (by rw [h]; rfl)
      rw [hb y List.mem_cons_self] at hmark
      cases hmark
  | cons x a ih =>
    cases b with
    | nil =>
      rw [List.nil_append] at h
      have hmark := hr' x (by rw [← h]; rfl)
      rw [ha x List.mem_cons_self] at hmark
      cases hmark
    | cons y b =>
      rw [List.cons_append, List.cons_append, List.cons.injEq] at h
      obtain ⟨hab, hrest⟩ := ih (fun x hx => ha x (List.mem_cons_of_mem _ hx))
        (fun y hy => hb y (List.mem_cons_of_mem _ hy)) h.2
      exact ⟨by rw [h.1, hab], hrest⟩

def IsBlock (p : α → Bool) (block : List α) : Prop :=
  ∃ body mark, block = body ++ [mark] ∧ (∀ x ∈ body, p x = false) ∧ p mark = true

theorem IsBlock.append_ne {block rest tail : List α} (h : IsBlock p block)
    (htail : ∀ x ∈ tail, p x = false) : block ++ rest ≠ tail := by
  obtain ⟨body, mark, rfl, -, hmark⟩ := h
  rintro rfl
  rw [htail mark (by simp)] at hmark
  cases hmark

theorem IsBlock.append_inj {block block' : List α} (h : IsBlock p block) (h' : IsBlock p block')
    (heq : block ++ r = block' ++ r') : block = block' ∧ r = r' := by
  obtain ⟨body, mark, rfl, hbody, hmark⟩ := h
  obtain ⟨body', mark', rfl, hbody', hmark'⟩ := h'
  rw [List.append_assoc, List.append_assoc] at heq
  obtain ⟨rfl, hrest⟩ := append_inj_of_marks hbody hbody' (by simpa using hmark)
    (by simpa using hmark') heq
  rw [List.singleton_append, List.singleton_append, List.cons.injEq] at hrest
  obtain ⟨rfl, rfl⟩ := hrest
  exact ⟨rfl, rfl⟩

/-- Blocks can be told from what they are run together to, where no mark follows them. -/
theorem flatMap_append_inj {as : List β} {bs : List γ} {f : β → List α} {g : γ → List α}
    (hf : ∀ a ∈ as, IsBlock p (f a)) (hg : ∀ b ∈ bs, IsBlock p (g b)) (hr : ∀ x ∈ r, p x = false)
    (hr' : ∀ x ∈ r', p x = false) (h : as.flatMap f ++ r = bs.flatMap g ++ r') :
    as.map f = bs.map g ∧ r = r' := by
  induction as generalizing bs with
  | nil =>
    cases bs with
    | nil => exact ⟨rfl, h⟩
    | cons b bs =>
      rw [List.flatMap_nil, List.nil_append, List.flatMap_cons, List.append_assoc] at h
      exact absurd h.symm ((hg b List.mem_cons_self).append_ne hr)
  | cons a as ih =>
    cases bs with
    | nil =>
      rw [List.flatMap_nil, List.nil_append, List.flatMap_cons, List.append_assoc] at h
      exact absurd h ((hf a List.mem_cons_self).append_ne hr')
    | cons b bs =>
      rw [List.flatMap_cons, List.flatMap_cons, List.append_assoc, List.append_assoc] at h
      obtain ⟨hfirst, hrest⟩ := (hf a List.mem_cons_self).append_inj (hg b List.mem_cons_self) h
      obtain ⟨hblocks, htail⟩ := ih (fun a ha => hf a (List.mem_cons_of_mem _ ha))
        (fun b hb => hg b (List.mem_cons_of_mem _ hb)) hrest
      exact ⟨by rw [List.map_cons, List.map_cons, hfirst, hblocks], htail⟩

theorem map_eq_map_of_flatMap {as : List β} {bs : List γ} {f : β → List α} {g : γ → List α}
    (hf : ∀ a ∈ as, IsBlock p (f a)) (hg : ∀ b ∈ bs, IsBlock p (g b))
    (h : as.flatMap f = bs.flatMap g) : as.map f = bs.map g := by
  rw [← List.append_nil (as.flatMap f), ← List.append_nil (bs.flatMap g)] at h
  exact (flatMap_append_inj hf hg (by simp) (by simp) h).1

/-- Lists with the same images also have the same images under what the images determine. -/
theorem map_eq_map_of_determined {as : List α} {bs : List β} {f : α → γ} {g : β → γ} {u : α → δ}
    {v : β → δ} (h : ∀ a ∈ as, ∀ b ∈ bs, f a = g b → u a = v b) (heq : as.map f = bs.map g) :
    as.map u = bs.map v := by
  induction as generalizing bs with
  | nil =>
    cases bs with
    | nil => rfl
    | cons b bs => cases heq
  | cons a as ih =>
    cases bs with
    | nil => cases heq
    | cons b bs =>
      rw [List.map_cons, List.map_cons, List.cons.injEq] at heq ⊢
      refine ⟨h a List.mem_cons_self b List.mem_cons_self heq.1, ih ?_ heq.2⟩
      intro a ha b hb
      exact h a (List.mem_cons_of_mem _ ha) b (List.mem_cons_of_mem _ hb)

theorem eq_of_map_eq {as bs : List α} {f : α → β} (h : ∀ a ∈ as, ∀ b ∈ bs, f a = f b → a = b)
    (heq : as.map f = bs.map f) : as = bs := by
  rw [← List.map_id as, ← List.map_id bs]
  exact map_eq_map_of_determined h heq

end CircuitLowering.Text
