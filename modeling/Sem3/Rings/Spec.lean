import Sem3.Rings.DenseMatrix

/-!
# The laws of rings and matrices

The laws that the sets over a finite ring should obey, and what the update of a matrix should change.
-/

namespace Sem3.Rings

/-! ## Rings of sets -/

/-- The laws of a commutative semiring for the values in `carrier`, with `compare` for equality. -/
structure Ring.IsCommSemiring {β : Type*} (R : Ring β) (carrier : β → Prop) : Prop where
  zero_mem : carrier R.zero
  one_mem : carrier R.one
  add_mem : ∀ a b, carrier a → carrier b → carrier (R.add a b)
  mul_mem : ∀ a b, carrier a → carrier b → carrier (R.mul a b)
  add_assoc : ∀ a b c, carrier a → carrier b → carrier c →
    R.compare (R.add (R.add a b) c) (R.add a (R.add b c)) = 0
  add_comm : ∀ a b, carrier a → carrier b → R.compare (R.add a b) (R.add b a) = 0
  mul_assoc : ∀ a b c, carrier a → carrier b → carrier c →
    R.compare (R.mul (R.mul a b) c) (R.mul a (R.mul b c)) = 0
  mul_comm : ∀ a b, carrier a → carrier b → R.compare (R.mul a b) (R.mul b a) = 0
  mul_add : ∀ a b c, carrier a → carrier b → carrier c →
    R.compare (R.mul a (R.add b c)) (R.add (R.mul a b) (R.mul a c)) = 0
  add_mul : ∀ a b c, carrier a → carrier b → carrier c →
    R.compare (R.mul (R.add a b) c) (R.add (R.mul a c) (R.mul b c)) = 0
  add_zero : ∀ a, carrier a → R.compare (R.add a R.zero) a = 0 ∧ R.compare (R.add R.zero a) a = 0
  mul_zero : ∀ a, carrier a →
    R.compare (R.mul a R.zero) R.zero = 0 ∧ R.compare (R.mul R.zero a) R.zero = 0
  mul_one : ∀ a, carrier a → R.compare (R.mul a R.one) a = 0 ∧ R.compare (R.mul R.one a) a = 0

/-! ## Matrices -/

namespace DenseMatrix

variable {α : Type}

/-- A matrix of `r` rows and `c` columns. -/
def Rectangular (r c : ℕ) (m : List (List α)) : Prop := m.length = r ∧ ∀ row ∈ m, row.length = c

/-- `m'` is `m`, but for the element at row `i` and column `j`. -/
structure Updates (r c i j : ℕ) (v : α) (m m' : List (List α)) : Prop where
  shape : Rectangular r c m'
  new : get i j m' = .ok v
  others : ∀ i' j' : ℕ, i' < r → j' < c → (i', j') ≠ (i, j) → get i' j' m' = get i' j' m

/-- `set` returns, and what it returns is an update. -/
def UpdateLaw (leftFirst : Bool) (r c i j : ℕ) (v : α) (m : List (List α)) : Prop :=
  ∃ fuel m', set leftFirst fuel i j v m = some (.ok m') ∧ Updates r c i j v m m'

end DenseMatrix

end Sem3.Rings
