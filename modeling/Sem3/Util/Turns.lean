import Mathlib.Data.List.Range
import Mathlib.Data.List.Flatten
import Mathlib.Logic.Function.Basic
import Mathlib.Logic.Relation
import Mathlib.Data.Nat.Notation

/-!
# Writers that take turns

The writers `0, 1, 2, …` each have a list of things to write, and share one output. The writer whose
turn it is writes the first thing that it has not written yet, or passes the turn on to the next
writer if nothing is left. The output is then what the writers before it have to write, one after
the other, and a part of its own.
-/

namespace Turns

/-- Whose turn it is, what is written, and what is not. -/
structure State (ω : Type*) where
  turn : ℕ
  out : List ω
  /-- What a writer has not written yet. -/
  todo : ℕ → List ω

variable {ω : Type*} {all : ℕ → List ω} {s : State ω}

/-- Nothing is written, and the writer `0` has the turn. -/
def State.init (all : ℕ → List ω) : State ω := ⟨0, [], all⟩

/-- The writer whose turn it is writes, or passes the turn on. -/
inductive Step : State ω → State ω → Prop
  | write {s : State ω} {w : ω} {ws : List ω} (h : s.todo s.turn = w :: ws) :
      Step s { s with out := s.out ++ [w], todo := Function.update s.todo s.turn ws }
  | pass {s : State ω} (h : s.todo s.turn = []) : Step s { s with turn := s.turn + 1 }

/-- The states that the writers get to. -/
def Reachable (all : ℕ → List ω) : State ω → Prop := Relation.ReflTransGen Step (.init all)

/-- The writers before the turn are done, those behind it have not begun. -/
structure Inv (all : ℕ → List ω) (s : State ω) : Prop where
  before : ∀ n < s.turn, s.todo n = []
  after : ∀ n, s.turn < n → s.todo n = all n
  out : s.out ++ s.todo s.turn = (List.range (s.turn + 1)).flatMap all

theorem inv (h : Reachable all s) : Inv all s := by
  induction h with
  | refl =>
    refine ⟨?_, fun n _ => rfl, by simp [State.init]⟩
    intro n hn
    exact absurd hn (Nat.not_lt_zero n)
  | tail _ hstep ih =>
    cases hstep with
    | @write w ws h =>
      refine ⟨?_, ?_, ?_⟩
      · intro n hn
        simpa [hn.ne] using ih.before n hn
      · intro n hn
        simpa [hn.ne'] using ih.after n hn
      · simpa [h] using ih.out
    | pass h =>
      refine ⟨?_, ?_, ?_⟩
      · intro n hn
        rcases Nat.lt_succ_iff_lt_or_eq.1 hn with hlt | rfl
        · exact ih.before n hlt
        · exact h
      · intro n hn
        exact ih.after n (Nat.lt_of_succ_lt hn)
      · have hout := ih.out
        rw [h, List.append_nil] at hout
        rw [List.range_succ, List.flatMap_append, ← hout, ih.after _ (Nat.lt_succ_self _)]
        simp

/-- The output is a prefix of what the first `k` writers write, if the turn is with one of them or
has gone past the last. -/
theorem Inv.out_isPrefix (h : Inv all s) {k : ℕ} (hk : s.turn ≤ k)
    (hend : s.turn = k → s.todo k = all k) : s.out <+: (List.range k).flatMap all := by
  rcases Nat.lt_or_eq_of_le hk with hlt | rfl
  · obtain ⟨d, rfl⟩ : ∃ d, k = (s.turn + 1) + d := ⟨k - (s.turn + 1), by omega⟩
    rw [List.range_add, List.flatMap_append, ← h.out, List.append_assoc]
    exact List.prefix_append _ _
  · have hout := h.out
    rw [hend rfl, List.range_succ, List.flatMap_append] at hout
    simp only [List.flatMap_cons, List.flatMap_nil, List.append_nil] at hout
    exact List.append_cancel_right hout ▸ List.prefix_rfl

end Turns
