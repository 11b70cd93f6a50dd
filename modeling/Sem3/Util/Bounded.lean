import Mathlib.Data.Nat.Notation

/-!
# Calls with a bound

A recursive function that need not end, and may raise an exception, takes a bound on the depth of its
calls: `none` if the bound is too small, else the result or the exception.
-/

universe u

/-- A computation that may raise an exception, or run into the bound on its calls (`none`). -/
abbrev Bounded (ε α : Type u) := ExceptT ε Option α

namespace Bounded

variable {ε α β : Type u} {x x' : Bounded ε α} {f f' : α → Bounded ε β} {a : α} {y : ε}
  {o : Except ε β}

/-- The bound is too small. -/
def tooDeep : Bounded ε α := (none : Option (Except ε α))

theorem some_inj {o o' : Except ε α} : @Eq (Bounded ε α) (some o) (some o') ↔ o = o' :=
  Option.some_inj

theorem pure_eq : (pure a : Bounded ε α) = some (.ok a) := rfl

theorem bind_ok (hx : x = some (.ok a)) : x >>= f = f a := by
  rw [hx]
  rfl

theorem bind_error (hx : x = some (.error y)) : x >>= f = some (.error y) := by
  rw [hx]
  rfl

/-- A sequence ends with the second part, or with the exception of the first one. -/
theorem bind_eq_some_iff : x >>= f = some o ↔
    (∃ a, x = some (.ok a) ∧ f a = some o) ∨ ∃ y, x = some (.error y) ∧ o = .error y := by
  constructor
  · intro h
    match x, h with
    | some (.ok a), h => exact .inl ⟨a, rfl, h⟩
    | some (.error y), h => exact .inr ⟨y, rfl, (Option.some.inj h).symm⟩
    | none, h => exact absurd h (by rintro ⟨⟩)
  · rintro (⟨a, hx, hf⟩ | ⟨y, hx, rfl⟩)
    · rw [bind_ok hx, hf]
    · exact bind_error hx

/-- A sequence returns if both parts do. -/
theorem bind_eq_ok_iff {b : β} : x >>= f = some (.ok b) ↔
    ∃ a, x = some (.ok a) ∧ f a = some (.ok b) := by
  rw [bind_eq_some_iff]
  constructor
  · rintro (h | ⟨y, -, ⟨⟩⟩)
    exact h
  · exact .inl

/-- What ends goes on to end when the bounds of both parts are raised. -/
theorem bind_mono (hx : ∀ o, x = some o → x' = some o) (hf : ∀ a o, f a = some o → f' a = some o)
    (h : x >>= f = some o) : x' >>= f' = some o := by
  rw [bind_eq_some_iff] at h ⊢
  rcases h with ⟨a, ha, ho⟩ | ⟨y, hy, ho⟩
  · exact .inl ⟨a, hx _ ha, hf a o ho⟩
  · exact .inr ⟨y, hx _ hy, ho⟩

/-! ## Pairs -/

variable {leftFirst : Bool} {x₁ x₂ x₁' x₂' : Bounded ε α} {a₁ a₂ : α}

/-- A pair of which one part is evaluated first. -/
def pair (leftFirst : Bool) (x₁ x₂ : Bounded ε α) : Bounded ε (α × α) :=
  if leftFirst then do
    let a₁ ← x₁
    let a₂ ← x₂
    pure (a₁, a₂)
  else do
    let a₂ ← x₂
    let a₁ ← x₁
    pure (a₁, a₂)

/-- A pair returns if both parts do, in either order. -/
theorem pair_eq_ok_iff :
    pair leftFirst x₁ x₂ = some (.ok (a₁, a₂)) ↔ x₁ = some (.ok a₁) ∧ x₂ = some (.ok a₂) := by
  constructor
  · intro h
    cases leftFirst
    · obtain ⟨b₂, h₂, h⟩ := bind_eq_ok_iff.1 h
      obtain ⟨b₁, h₁, h⟩ := bind_eq_ok_iff.1 h
      cases h
      exact ⟨h₁, h₂⟩
    · obtain ⟨b₁, h₁, h⟩ := bind_eq_ok_iff.1 h
      obtain ⟨b₂, h₂, h⟩ := bind_eq_ok_iff.1 h
      cases h
      exact ⟨h₁, h₂⟩
  · rintro ⟨rfl, rfl⟩
    cases leftFirst <;> rfl

/-- A pair raises the exception of the part that is evaluated first, or that of the other one. -/
theorem pair_eq_error_iff : pair leftFirst x₁ x₂ = some (.error y) ↔
    (if leftFirst then x₁ else x₂) = some (.error y) ∨
      (∃ a, (if leftFirst then x₁ else x₂) = some (.ok a)) ∧
        (if leftFirst then x₂ else x₁) = some (.error y) := by
  cases leftFirst <;> simp [pair, bind_eq_some_iff, pure_eq, some_inj, or_comm]

/-- With more fuel for its parts a pair gives the same. -/
theorem pair_mono (h₁ : ∀ o, x₁ = some o → x₁' = some o) (h₂ : ∀ o, x₂ = some o → x₂' = some o)
    {o : Except ε (α × α)} (h : pair leftFirst x₁ x₂ = some o) : pair leftFirst x₁' x₂' = some o := by
  cases leftFirst
  · exact bind_mono h₂ (fun _ _ => bind_mono h₁ fun _ _ ho => ho) h
  · exact bind_mono h₁ (fun _ _ => bind_mono h₂ fun _ _ ho => ho) h

end Bounded
