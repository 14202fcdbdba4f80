/-!
# Queries made of queries

A query answers or stops at a failure.  A query that is made of others answers where all of them do,
and what each step of a run over a list keeps, the whole run keeps.
-/

namespace CircuitLowering

variable {ε α β : Type} {x : Except ε α}

theorem bind_eq_ok_iff {f : α → Except ε β} {b : β} :
    (x >>= f) = .ok b ↔ ∃ a, x = .ok a ∧ f a = .ok b := by
  constructor
  · intro h
    cases x with
    | error e => cases h
    | ok a => exact ⟨a, rfl, h⟩
  · intro h
    rcases h with ⟨a, rfl, h⟩
    exact h

theorem eq_ok_of_toOption {a : α} (h : x.toOption = some a) : x = .ok a := by
  cases x with
  | ok b => exact congrArg Except.ok (Option.some.inj h)
  | error e => cases h

theorem eq_ok_getD (h : x.toOption.isSome) (default : α) : x = .ok (x.toOption.getD default) := by
  cases x with
  | error e => cases h
  | ok a => rfl

theorem discard_eq_ok_iff {u : Unit} : discard x = .ok u ↔ ∃ a, x = .ok a := by
  constructor
  · intro h
    cases x with
    | error e => cases h
    | ok a => exact ⟨a, rfl⟩
  · intro h
    rcases h with ⟨a, rfl⟩
    rfl

/-- A list is read where each of its items is. -/
theorem mapM_map_eq_some {γ : Type} {as : List γ} {f : γ → α} {g : γ → β}
    {read? : α → Option β}
    (h : ∀ a ∈ as, read? (f a) = some (g a)) : (as.map f).mapM read? = some (as.map g) := by
  induction as with
  | nil => rfl
  | cons a as ih =>
    obtain ⟨ha, has⟩ := List.forall_mem_cons.mp h
    simp only [List.map_cons, List.mapM_cons, ha, ih has]
    rfl

/-! ### Queries with a state -/

section States

variable {σ : Type} {s : σ}

theorem bind_apply_eq_ok_iff {x : StateT σ (Except ε) α} {f : α → StateT σ (Except ε) β} {b : β × σ} :
    (x >>= f) s = .ok b ↔ ∃ a s', x s = .ok (a, s') ∧ f a s' = .ok b := by
  refine (bind_eq_ok_iff (x := x s)).trans ?_
  rw [Prod.exists]

/-- A run over a list whose items tell by themselves what each step makes of the state.  An answer may
depend on the steps before it and on its own, but not on those that follow. -/
theorem exists_mapM_apply {γ : Type} {as : List α} {query : α → StateT σ (Except ε) β}
    {known : γ → σ → Prop} {next : γ → α → γ} {answer : γ → α → β}
    (hstep : ∀ a ∈ as, ∀ c s, known c s →
      ∃ s', query a s = .ok (answer (next c a) a, s') ∧ known (next c a) s')
    (hstable : ∀ a c (later : List α), answer (later.foldl next (next c a)) a = answer (next c a) a)
    {c : γ} (hs : known c s) :
    ∃ s', as.mapM query s = .ok (as.map (answer (as.foldl next c)), s') ∧ known (as.foldl next c) s' := by
  induction as generalizing c s with
  | nil => exact ⟨s, rfl, hs⟩
  | cons a as ih =>
    obtain ⟨s₁, hfirst, hs₁⟩ := hstep a List.mem_cons_self c s hs
    obtain ⟨s₂, hrest, hs₂⟩ := ih (fun a ha => hstep a (List.mem_cons_of_mem _ ha)) hs₁
    refine ⟨s₂, ?_, hs₂⟩
    rw [List.mapM_cons, bind_apply_eq_ok_iff]
    refine ⟨_, s₁, hfirst, bind_apply_eq_ok_iff.mpr ⟨_, s₂, hrest, ?_⟩⟩
    rw [List.map_cons, List.foldl_cons, hstable]
    rfl

end States

/-! ### Runs -/

/-- What each step keeps, a run over a list keeps. -/
theorem foldlM_invariant {step : β → α → Except ε β} (P : β → Prop) {as : List α} {b b' : β}
    (hstep : ∀ b a b', a ∈ as → step b a = .ok b' → P b → P b') (hb : P b)
    (h : as.foldlM step b = .ok b') : P b' := by
  induction as generalizing b with
  | nil =>
    cases h
    exact hb
  | cons a as ih =>
    obtain ⟨b₁, ha, has⟩ := bind_eq_ok_iff.mp h
    refine ih (fun b a b' hmem => hstep b a b' (List.mem_cons_of_mem _ hmem)) ?_ has
    exact hstep b a b₁ List.mem_cons_self ha hb

end CircuitLowering
