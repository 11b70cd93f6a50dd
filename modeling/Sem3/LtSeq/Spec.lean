import Sem3.LtSeq.LtSeq

/-!
# Sequences that occur twice

The two places must not overlap.
-/

namespace Sem3.LtSeq

variable {α : Type*}

/-- `s` stands in `l` at position `i`. -/
def OccursAt (s l : List α) (i : ℕ) : Prop := ∃ u v, l = u ++ s ++ v ∧ u.length = i

/-- `s` stands in `l` at two positions that do not overlap. -/
def OccursTwice (s l : List α) : Prop :=
  ∃ i j, i < j ∧ i + s.length ≤ j ∧ OccursAt s l i ∧ OccursAt s l j

end Sem3.LtSeq
