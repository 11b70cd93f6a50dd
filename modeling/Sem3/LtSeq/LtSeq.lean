import Sem3.Util.Comparator

/-!
# Longest sequences that occur twice (`exercise05`)

`lt_seq` compares, for every suffix of a list, the beginning of the suffix with each of its own
suffixes, and takes the longest part in which they agree.
-/

namespace Sem3.LtSeq

variable {α : Type*}

/-- `suffices`, which is a keyword here. -/
def suffixes : List α → List (List α)
  | [] => [[]]
  | x :: xs => (x :: xs) :: suffixes xs

/-- The first `n` elements. -/
def take (l : List α) (n : ℤ) : List α :=
  match l with
  | [] => []
  | x :: xs => if n ≤ 0 then [] else x :: take xs (n - 1)

/-- The elements behind the first `n`. -/
def drop (l : List α) (n : ℤ) : List α :=
  match l with
  | [] => []
  | x :: xs => if n ≤ 0 then x :: drop xs n else drop xs (n - 1)

/-- The longest common beginning of two lists. -/
def matched [DecidableEq α] : List α → List α → List α
  | [], _ => []
  | _, [] => []
  | x :: xs, y :: ys => if x = y then x :: matched xs ys else []

/-- `suffixmatches` with a bound on the number of calls: past the length of the list it does not
end. -/
def suffixmatches [DecidableEq α] : ℕ → List α → ℤ → Option (List (List α))
  | 0, _, _ => none
  | bound + 1, l, n =>
    let m := matched (take l n) (drop l n)
    if n = l.length then some [m] else (suffixmatches bound l (n + 1)).map (m :: ·)

/-- The comparator of `longestsub`: longer lists come first. -/
def longer (x y : List α) : ℤ :=
  let xl := x.length
  let yl := y.length
  if xl < yl then 1 else if xl > yl then -1 else 0

/-- The first one of the longest lists. -/
def longestsub (l : List (List α)) : List α :=
  match Comparator.sort longer l with
  | [] => []
  | x :: _ => x

/-- `lt_seq`, where the bound is on the calls for each suffix. -/
def ltSeq [DecidableEq α] (bound : ℕ) (l : List α) : Option (List α) := do
  let subs ← (suffixes l).mapM fun l => (suffixmatches bound l 0).map longestsub
  some (longestsub subs)

end Sem3.LtSeq
