import Sem3.Sched.Input
import Sem3.Sched.ReadyQueue
import Mathlib.Data.List.Forall2
import Mathlib.Data.Nat.Digits.Defs

/-!
# What the scheduler is for

Which thread a pass should execute, which inputs describe threads, and which node of the ready list is
the next one.
-/

namespace Sem3.Sched

/-! ## Rows -/

/-- The number of rows that name the thread `a`. -/
def Sim.rowsOf (s : Sim) (a : ℕ) : ℕ := s.rows.countP fun r => r.2 = a + 1

/-! ## Decisions -/

/-- The pass from `s` chooses a thread. -/
def Sim.decides (q : ℤ) (s : Sim) : Prop := s.lastQ + q = s.millis ∨ s.active = none

/-- The pass from `s` chooses the thread `a`. -/
def Sim.selects (alg : Algo) (t q : ℤ) (s : Sim) (a : ℕ) : Prop :=
  s.decides q ∧ (s.tick alg t q).active = some a

/-- The thread `b` has arrived at the time of the pass from `s` and is not finished. -/
def Sim.competes (threads : List Params) (s : Sim) (b : ℕ) : Prop :=
  b < threads.length ∧ (s.ctx b).start ≤ s.millis ∧ 0 < (s.ctx b).target

/-- The thread executed in the pass from `s` has no more work left than any other one that has arrived
and is not finished. -/
def RunsShortest (threads : List Params) (t q : ℤ) (s : Sim) : Prop :=
  ∀ a, (s.tick .srtn t q).active = some a → ∀ b, b ≠ a → s.competes threads b →
    (s.ctx a).target ≤ (s.ctx b).target

/-- A thread with less work left than the active one arrives within the slot. -/
def Overtaken (q : ℤ) (s : Sim) : Prop :=
  ¬ s.decides q ∧ ∃ a b, s.active = some a ∧ b ∈ s.list ∧ (s.ctx b).start ≤ s.millis ∧
    0 < (s.ctx b).target ∧ (s.ctx b).target < (s.ctx a).target

/-! ## Thread descriptions -/

/-- The number that a list of digits stands for. -/
def numeral (f : List Char) : ℕ := Nat.ofDigits 10 (f.reverse.map fun c => c.toNat - '0'.toNat)

/-- A number is written with digits only, and at least one. -/
def IsDecimal (f : List Char) : Prop := f ≠ [] ∧ f.all Char.isDigit

/-- The bounds of the element `i` of `params`. -/
def Allowed : ℕ → ℤ → Prop
  | 0, v => 1 ≤ v ∧ v ≤ 10
  | 1, v => v ≤ 100000
  | 2, v => v ≤ 30000
  | _, _ => True

/-- The line consists of three numbers, separated by single spaces and ended by a newline, that are
in range, and `p` are these numbers. -/
def Describes (line : List Char) (p : Params) : Prop :=
  ∃ f g h, line = f ++ ' ' :: (g ++ ' ' :: (h ++ ['\n'])) ∧
    (IsDecimal f ∧ IsDecimal g ∧ IsDecimal h) ∧ p = ⟨numeral f, numeral g, numeral h⟩ ∧
    Allowed 0 p.prio ∧ Allowed 1 p.start ∧ Allowed 2 p.target

/-- The lines of an input: each but the last is ended by a newline, and all are shorter than the
buffer. -/
structure IsInput (lines : List (List Char)) : Prop where
  length : ∀ line ∈ lines, line.length < 1023
  ne_nil : ∀ line ∈ lines, line ≠ []
  newline : ∀ line ∈ lines, '\n' ∉ line.dropLast
  ended : ∀ line ∈ lines.dropLast, line.getLast? = some '\n'

/-- The lines are accepted if and only if all of them are well formed, and then each thread has the
numbers of its line. -/
def ReadsFaithfully (lines : List (List Char)) (buf : List Char) (params : ℕ → ℤ) : Prop :=
  ((∃ threads, readThreads lines.length ⟨lines.flatten, buf, params⟩ = .ok threads) ↔
      ∀ line ∈ lines, ∃ p, Describes line p) ∧
    ∀ threads, readThreads lines.length ⟨lines.flatten, buf, params⟩ = .ok threads →
      List.Forall₂ Describes lines threads

/-- The characters that end a field. -/
def isSeparator (c : Char) : Bool := c = ' ' ∨ c = '\n'

/-- The fields that are ended by a separator, in front of the first `NUL`. -/
def fields (line : List Char) : List (List Char) :=
  ((line.takeWhile (· ≠ nul)).splitOnP isSeparator).dropLast

/-- The fields of the line are at most three numbers in range. Neither a field for each number nor a
digit in each field is required. -/
def Tolerated (line : List Char) : Prop :=
  (∀ f ∈ fields line, f.all Char.isDigit) ∧ (fields line).length ≤ 3 ∧
    ∀ i f, (fields line)[i]? = some f → Allowed i (atoi f)

/-- The elements of `params` that the first line does not set are in range. -/
def Covered (params : ℕ → ℤ) (lines : List (List Char)) : Prop :=
  ∀ line, lines.head? = some line → ∀ i < 3, (fields line)[i]? = none → Allowed i (params i)

/-! ## The queue of nodes -/

namespace ReadyQueue

open LinkedList (Store Malloc)

/-- The threads of a list of nodes. -/
abbrev threads (xs : List (ℕ × ℕ)) : List ℕ := xs.map Prod.snd

/-- An unfinished active thread is appended, if there is memory for its node. -/
def Queued (ctx : ℕ → Threadcontext) (malloc : Malloc ℕ) (s : Store ℕ) (xs : List (ℕ × ℕ))
    (active : Option ℕ) (zs : List (ℕ × ℕ)) : Prop :=
  (∃ a n, active = some a ∧ (ctx a).target > 0 ∧ malloc.pick s.cells = some n ∧
      zs = xs ++ [(n, a)]) ∨
    (∀ a, active = some a → ¬ (ctx a).target > 0) ∧ zs = xs

/-- `x` is the thread that the algorithm takes, with the nodes `u` in front of it and `v` behind
it: the head for `rr`, and else the first one of those with the smallest value. -/
def Picks (ctx : ℕ → Threadcontext) (u : List (ℕ × ℕ)) (x : ℕ × ℕ) (v : List (ℕ × ℕ)) :
    Algo → Prop
  | .rr => u = []
  | .prr => (∀ y ∈ u, (ctx x.2).prio < (ctx y.2).prio) ∧ ∀ y ∈ v, (ctx x.2).prio ≤ (ctx y.2).prio
  | .srtn =>
    (∀ y ∈ u, (ctx x.2).target < (ctx y.2).target) ∧ ∀ y ∈ v, (ctx x.2).target ≤ (ctx y.2).target

end ReadyQueue

end Sem3.Sched
