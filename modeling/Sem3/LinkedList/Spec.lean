import Sem3.LinkedList.List
import Mathlib.Data.List.Nodup
import Mathlib.Data.Set.Finite.Basic

/-!
# The list as a sequence

What the list stands for: the sequence of its elements, each with its address and its payload. `Repr`
relates a heap structure to the sequence it represents, and `specStep` says what a call does to a
sequence.
-/

namespace Sem3.LinkedList

open Chain

variable {α : Type*}

/-- The heap structure `s` represents the sequence `xs`: following `next` from `first` visits exactly
the nodes of `xs`, all distinct, and ends with `NULL`; `last` is the last of them, and `size` counts
them. -/
structure Repr (s : Store α) (xs : List (ℕ × α)) : Prop where
  chain : Seg s.cells s.first xs none
  nodup : (nodes xs).Nodup
  last : s.last = (nodes xs).getLast?
  size : s.size = xs.length

/-- Finitely many blocks are in use. -/
def Store.FinitelyUsed (s : Store α) : Prop := {n | s.cells n ≠ none}.Finite

/-- `malloc` gives a block as long as there is one. -/
def Malloc.Succeeds (malloc : Malloc α) : Prop := ∀ h, (∃ n, h n = none) → malloc.pick h ≠ none

/-- What `malloc` answers during a call. -/
def Op.answer (s : Store α) : Op α → Option ℕ
  | .insert _ malloc => malloc.pick s.cells
  | .append _ malloc => malloc.pick s.cells
  | _ => none

/-- The stores that fill an array with the values `vs`, followed by `NULL`. -/
def fill (vs : List α) : List (ℕ × Option α) := (vs.map some ++ [none]).zipIdx.map Prod.swap

/-- What a call does to the sequence and what it returns, given the answer of `malloc`. -/
def specStep (answer : Option ℕ) (op : Op α) (xs : List (ℕ × α)) : List (ℕ × α) × Ret α :=
  match op with
  | .init => ([], .unit)
  | .insert data _ =>
    match answer with
    | none => (xs, .elem none)
    | some n => ((n, data) :: xs, .elem (some n))
  | .append data _ =>
    match answer with
    | none => (xs, .elem none)
    | some n => (xs ++ [(n, data)], .elem (some n))
  | .remove elem =>
    if ∃ n ∈ nodes xs, elem = some n then (xs.eraseP fun x => some x.1 = elem, .status 0)
    else (xs, .status (-1))
  | .find data cmpElem =>
    (xs, .elem ((xs.find? fun x => cmpElem x.2 data = 0).map Prod.fst))
  | .finit => ([], .unit)
  | .toArray => (xs, .array { capacity := xs.length + 1, stores := fill (xs.map Prod.snd) })

end Sem3.LinkedList
