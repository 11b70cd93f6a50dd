import Sem3.Util.Int63

/-!
# `int_of_string`

An optional sign, an optional base (`0x`, `0o`, `0b`, and `0u` for an unsigned decimal number), and
digits, of which the first one is no underscore. A number with a base is unsigned, and wraps around.
-/

namespace Ocaml

/-- The value of a digit. -/
def digit (c : Char) : Option ℕ :=
  if '0' ≤ c ∧ c ≤ '9' then some (c.toNat - 48)
  else if 'a' ≤ c ∧ c ≤ 'f' then some (c.toNat - 87)
  else if 'A' ≤ c ∧ c ≤ 'F' then some (c.toNat - 55)
  else none

/-- Whether the number is negative, and what stands behind the sign. -/
def sign : List Char → Bool × List Char
  | '-' :: s => (true, s)
  | '+' :: s => (false, s)
  | s => (false, s)

/-- The base, whether the number is signed, and what stands behind the base. -/
def base : List Char → ℕ × Bool × List Char
  | '0' :: 'x' :: s => (16, false, s)
  | '0' :: 'X' :: s => (16, false, s)
  | '0' :: 'o' :: s => (8, false, s)
  | '0' :: 'O' :: s => (8, false, s)
  | '0' :: 'b' :: s => (2, false, s)
  | '0' :: 'B' :: s => (2, false, s)
  | '0' :: 'u' :: s => (10, false, s)
  | '0' :: 'U' :: s => (10, false, s)
  | s => (10, true, s)

/-- The number, when the value of the digits read so far is `v`. -/
def digits (b v : ℕ) : List Char → Option ℕ
  | [] => some v
  | c :: s =>
    if c = '_' then digits b v s
    else
      match digit c with
      | some d => if d < b then digits b (b * v + d) s else none
      | none => none

/-- The greatest number that fits behind a sign. -/
def maxAbs (negative signed : Bool) : ℕ :=
  if signed then if negative then 2 ^ 62 else 2 ^ 62 - 1 else 2 ^ 63 - 1

/-- `int_of_string`; `none` if it raises `Failure`. -/
def intOfString (s : List Char) : Option Int63 :=
  let (negative, s) := sign s
  let (b, signed, s) := base s
  if s.head? = some '_' ∨ s = [] then none
  else
    match digits b 0 s with
    | some v =>
      if v ≤ maxAbs negative signed then some (Int63.ofInt (if negative then -v else v)) else none
    | none => none

example : intOfString ['-', '0', 'x', '1', '_', 'F'] = some (-31) := rfl

end Ocaml
