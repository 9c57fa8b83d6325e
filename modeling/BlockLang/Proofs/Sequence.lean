import Mathlib.Tactic.Basic

/-! Passes one after the other. Two kinds of passes are in use: those that lose their state when they
fail, and those that keep it. These lemmas say when a sequence of passes succeeds, and what it
yields. -/

namespace BlockLang.Sequence

variable {σ ε α β : Type}

section Losing

variable {x : StateT σ (Except ε) α} {f : α → StateT σ (Except ε) β} {s : σ}

theorem bind_ok {r : β × σ} :
    (x >>= f) s = .ok r ↔ ∃ a s', x s = .ok (a, s') ∧ f a s' = .ok r := by
  show (x s).bind _ = _ ↔ _
  cases x s with
  | error e => simp [Except.bind]
  | ok r' =>
      refine ⟨fun h => ⟨r'.1, r'.2, rfl, h⟩, ?_⟩
      rintro ⟨a, s', heq, h⟩
      cases heq
      exact h

theorem bind_of_ok {a : α} {s' : σ} (h : x s = .ok (a, s')) : (x >>= f) s = f a s' := by
  show (x s).bind _ = _
  rw [h]
  rfl

end Losing

section Keeping

variable {x : ExceptT ε (StateM σ) α} {f : α → ExceptT ε (StateM σ) β} {s : σ}

theorem bind_apply : (x >>= f) s = match x s with
    | (.ok a, s') => f a s'
    | (.error e, s') => (.error e, s') := by
  show (match x s with
    | (r, s') => (ExceptT.bindCont f r) s') = _
  rcases x s with ⟨r, s'⟩
  cases r <;> rfl

/-- A sequence succeeds if both of its parts do. -/
theorem bind_fine {b : β} {s' : σ} :
    (x >>= f) s = (.ok b, s') ↔ ∃ a t, x s = (.ok a, t) ∧ f a t = (.ok b, s') := by
  rw [bind_apply]
  rcases x s with ⟨r, t⟩
  cases r with
  | error e =>
      refine ⟨nofun, ?_⟩
      rintro ⟨a, t', heq, -⟩
      cases heq
  | ok a =>
      refine ⟨fun h => ⟨a, t, rfl, h⟩, ?_⟩
      rintro ⟨a', t', heq, h⟩
      cases heq
      exact h

/-- A sequence fails if its first part does, or the second one behind it. -/
theorem bind_failed {e : ε} {s' : σ} : (x >>= f) s = (.error e, s') ↔
    x s = (.error e, s') ∨ ∃ a t, x s = (.ok a, t) ∧ f a t = (.error e, s') := by
  rw [bind_apply]
  rcases x s with ⟨r, t⟩
  cases r with
  | error e' =>
      constructor
      · intro h
        cases h
        exact .inl rfl
      · rintro (heq | ⟨a, t', heq, -⟩)
        · cases heq
          rfl
        · cases heq
  | ok a =>
      refine ⟨fun h => .inr ⟨a, t, rfl, h⟩, ?_⟩
      rintro (heq | ⟨a', t', heq, h⟩)
      · cases heq
      · cases heq
        exact h

theorem bind_congr {g : α → ExceptT ε (StateM σ) β} (h : ∀ a t, x s = (.ok a, t) → f a t = g a t) :
    (x >>= f) s = (x >>= g) s := by
  rw [bind_apply, bind_apply]
  rcases hx : x s with ⟨_ | a, t⟩
  · rfl
  · exact h a t hx

theorem bind_congr_left {y : ExceptT ε (StateM σ) α} (h : x s = y s) : (x >>= f) s = (y >>= f) s := by
  rw [bind_apply, bind_apply, h]

theorem pure_apply (a : α) (s : σ) : (pure a : ExceptT ε (StateM σ) α) s = (.ok a, s) := rfl

theorem get_apply (s : σ) : (get : ExceptT ε (StateM σ) σ) s = (.ok s, s) := rfl

end Keeping

end BlockLang.Sequence
