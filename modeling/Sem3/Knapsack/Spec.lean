import Sem3.Knapsack.Knapsack
import Mathlib.Algebra.BigOperators.Group.List.Basic

/-!
# The best packing

What a list of names should be, and the presents for which no sum overflows.
-/

namespace Sem3.Knapsack

variable {ν : Type*} {pres : List (Present ν)}

/-- The value of the presents, as an integer. -/
def totalValue (c : List (Present ν)) : ℤ := (c.map fun p => p.2.1.val).sum

/-- The weight of the presents, as an integer. -/
def totalWeight (c : List (Present ν)) : ℤ := (c.map fun p => p.2.2.val).sum

/-- A part of the presents, each used at most once, within the capacity. -/
def Packable (pres : List (Present ν)) (w : Int63) (c : List (Present ν)) : Prop :=
  c.Sublist pres ∧ totalWeight c ≤ w.val

/-- The names are those of a packing of the greatest value. -/
def Optimal (pres : List (Present ν)) (w : Int63) (names : List ν) : Prop :=
  ∃ c, Packable pres w c ∧ names.Perm (c.map Prod.fst) ∧
    ∀ c', Packable pres w c' → totalValue c' ≤ totalValue c

/-- No packing has a value above the greatest integer. -/
def Fits (pres : List (Present ν)) (w : Int63) : Prop :=
  ∀ c, Packable pres w c → totalValue c < 2 ^ 62

/-- All weights are non-negative. -/
def Weighted (pres : List (Present ν)) : Prop := ∀ p ∈ pres, 0 ≤ p.2.2.val

/-- Presents of one name have one value. -/
def Priced (pres : List (Present ν)) : Prop := ∀ p ∈ pres, ∀ q ∈ pres, p.1 = q.1 → p.2.1 = q.2.1

instance : Decidable (Weighted pres) := inferInstanceAs (Decidable (∀ p ∈ pres, 0 ≤ p.2.2.val))

instance [DecidableEq ν] : Decidable (Priced pres) :=
  inferInstanceAs (Decidable (∀ p ∈ pres, ∀ q ∈ pres, p.1 = q.1 → p.2.1 = q.2.1))

end Sem3.Knapsack
