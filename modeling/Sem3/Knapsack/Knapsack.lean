import Sem3.Util.Int63

/-!
# Choosing presents (`exercise09`, 9.3-7)

A present has a name, a value and a weight. `m` gives the best value within a capacity, and the names
chosen for it in front of those that are chosen already.
-/

namespace Sem3.Knapsack

variable {ν : Type*}

/-- The name, the value and the weight of a present. -/
abbrev Present (ν : Type*) := ν × Int63 × Int63

/-- The best value of the presents within the weight `w`, and their names in front of `s`: without
the first present or with it. -/
def m : List (Present ν) → Int63 → List ν → Int63 × List ν
  | [], _, s => (0, s)
  | (ni, vi, wi) :: ps, w, s =>
    if wi > w then m ps w s
    else
      let f := m ps w s
      let a := m ps (w - wi) (ni :: s)
      if f.1 > a.1 + vi then f else (a.1 + vi, a.2)

/-- The names of the presents to take. -/
def knapsack (pres : List (Present ν)) (w : Int63) : List ν := (m pres w []).2

end Sem3.Knapsack
