import Mathlib.Logic.Function.Basic
import Mathlib.Data.Nat.Notation

/-!
# Stores into buffers

Buffers of which only the sizes are kept. An action gives a buffer another size or stores some bytes
into it; `run` performs a list of actions, and gives `none` at a store that lies outside.
-/

namespace Buffers

/-- An action on one of the buffers `β`. -/
inductive Act (β : Type*) where
  /-- `malloc` or `realloc` to `n` bytes. -/
  | alloc (b : β) (n : ℕ)
  /-- A store of `n` bytes from the index `i` on. -/
  | store (b : β) (i n : ℕ)
deriving DecidableEq, Repr

variable {β : Type*} [DecidableEq β]

/-- The sizes behind the action; `none` for a store outside of its array. -/
def Act.run : Act β → (β → ℕ) → Option (β → ℕ)
  | .alloc b n, sizes => some (Function.update sizes b n)
  | .store b i n, sizes => if n = 0 ∨ i + n ≤ sizes b then some sizes else none

/-- The actions, one after the other. -/
def run : List (Act β) → (β → ℕ) → Option (β → ℕ)
  | [], sizes => some sizes
  | a :: as, sizes => (a.run sizes).bind (run as)

variable {sizes : β → ℕ} {as bs : List (Act β)} {b : β} {i n : ℕ}

@[simp] theorem run_nil : run [] sizes = some sizes := rfl

@[simp] theorem run_alloc : run (.alloc b n :: as) sizes = run as (Function.update sizes b n) := rfl

/-- Two sequences of actions, one behind the other. -/
theorem run_append (as bs : List (Act β)) (sizes : β → ℕ) :
    run (as ++ bs) sizes = (run as sizes).bind (run bs) := by
  induction as generalizing sizes with
  | nil => rfl
  | cons a as ih =>
    rw [List.cons_append, run, run]
    cases a.run sizes with
    | none => rfl
    | some sizes' => exact ih sizes'

/-- A store inside of its array changes no size. -/
theorem run_store (h : n = 0 ∨ i + n ≤ sizes b) : run (.store b i n :: as) sizes = run as sizes := by
  simp [run, Act.run, h]

/-- A single byte. -/
theorem run_byte {sizes' : β → ℕ} :
    run [.store b i 1] sizes = some sizes' ↔ i + 1 ≤ sizes b ∧ sizes' = sizes := by
  by_cases h : i + 1 ≤ sizes b <;> simp [run, Act.run, h, eq_comm]

/-- Only `alloc` changes the sizes. -/
theorem run_invariant {Q : (β → ℕ) → Prop} {sizes' : β → ℕ} (h0 : Q sizes)
    (h : ∀ b n s, .alloc b n ∈ as → Q s → Q (Function.update s b n))
    (hr : run as sizes = some sizes') : Q sizes' := by
  induction as generalizing sizes with
  | nil => exact Option.some.inj hr ▸ h0
  | cons a as ih =>
    rw [run, Option.bind_eq_some_iff] at hr
    obtain ⟨s, ha, hr⟩ := hr
    refine ih ?_ (fun b n s hm => h b n s (List.mem_cons_of_mem _ hm)) hr
    cases a with
    | alloc b n =>
      rw [← Option.some.inj ha]
      exact h b n sizes List.mem_cons_self h0
    | store b i n =>
      simp only [Act.run, Option.ite_none_right_eq_some, Option.some.injEq] at ha
      exact ha.2 ▸ h0

end Buffers
