import Sem3.Sched.Threadsched
import Mathlib.Logic.Function.Basic

/-!
# The thread descriptions (`threadsched.c`, the reading loop of `main`)

One line for each thread is read into `buf` and cut at spaces and newlines, which are overwritten with
`NUL`. What stands in `buf` in front of the `NUL` that `fgets` writes is a list of characters. The
arrays `buf` and `params` are not initialised, so their contents are arguments; after the last
character of the input `fgets` leaves `buf` as it is. `int` is unbounded: for a number that is not
within its range the C library leaves open what `atoi` gives, and `atoi` here gives the number.
-/

namespace Sem3.Sched

/-- The terminator of a string. -/
def nul : Char := Char.ofNat 0

/-- The calls of `exit(-1)`, by the message before them. -/
inductive Exit where
  /-- `Expected integer` -/
  | expectedInteger
  /-- `Expected 3 Parameters` -/
  | expected3Parameters
  /-- `Invalid Parameters` -/
  | invalidParameters
deriving DecidableEq, Repr

/-- The characters up to the next newline, at most `k` of them, and what is left. -/
def readLine : ℕ → List Char → List Char × List Char
  | 0, cs => ([], cs)
  | _ + 1, [] => ([], [])
  | k + 1, c :: cs => if c = '\n' then ([c], cs) else (c :: (readLine k cs).1, (readLine k cs).2)

/-- `buf` and `stdin` after `fgets(buf, size, stdin)`. -/
def fgets (buf : List Char) (size : ℕ) (stdin : List Char) : List Char × List Char :=
  if stdin = [] then (buf, stdin) else readLine (size - 1) stdin

/-- `atoi` on digits. -/
def atoi (l : List Char) : ℤ := l.foldl (fun v c => 10 * v + (c.toNat - '0'.toNat : ℕ)) 0

/-- The loop over `buf` from `p` on, where `field` stands between `l` and `p`: the contents of `buf`
from `l` on and of `params` behind the loop. -/
def scan : List Char → List Char → (ℕ → ℤ) → ℕ → Except Exit (List Char × (ℕ → ℤ))
  | [], field, params, _ => .ok (field, params)
  | c :: rest, field, params, pIndex =>
    if c = nul then .ok (field ++ c :: rest, params)
    else if c = ' ' ∨ c = '\n' then
      if ¬ field.all Char.isDigit then .error .expectedInteger
      else if pIndex ≥ 3 then .error .expected3Parameters
      else
        match scan rest [] (Function.update params pIndex (atoi field)) (pIndex + 1) with
        | .error e => .error e
        | .ok (buf, params') => .ok (field ++ nul :: buf, params')
    else scan rest (field ++ [c]) params pIndex

/-- What the loop keeps from one line to the next. -/
structure Reader where
  stdin : List Char
  buf : List Char
  params : ℕ → ℤ

/-- The body of the loop: one thread. -/
def readThread (r : Reader) : Except Exit (Params × Reader) :=
  let (buf, stdin) := fgets r.buf 1023 r.stdin
  match scan buf [] r.params 0 with
  | .error e => .error e
  | .ok (buf', params) =>
    if params 0 < 1 ∨ params 0 > 10 ∨ params 1 > 100000 ∨ params 2 > 30000 then
      .error .invalidParameters
    else .ok (⟨params 0, params 1, params 2⟩, ⟨stdin, buf', params⟩)

/-- The loop for `n` threads. -/
def readThreads : ℕ → Reader → Except Exit (List Params)
  | 0, _ => .ok []
  | n + 1, r =>
    match readThread r with
    | .error e => .error e
    | .ok (p, r') => (readThreads n r').map (p :: ·)

end Sem3.Sched
