import Sem3.Util.Monitor

/-!
# Files written to one output by several threads

Model of `blatt05/syncorder.c`. Each thread runs `dump`: it takes a number from the counter `a->n`,
opens the file of that number and hands what it reads, at most `sz` bytes at a time, to
`write_buffer`. The mode says when the mutex `so` is held: for each line, for a whole file, or for
each line while it is the turn of the thread, in the order of the numbers.
-/

namespace Syncorder

/-- The size of the buffer for a line. -/
def sz : ℕ := 64

/-- When the mutex `so` is held. -/
inductive Mode where
  | line
  | wfile
  | order
  deriving DecidableEq

/-- A `write` to the output, with the thread that it is made for. -/
inductive Write where
  | outbuf (thread i : ℕ)
  | buffer (thread : ℕ) (chunk : List Char)
  | newline (thread : ℕ)
  deriving DecidableEq

/-- `%0wd` for a number that is not negative. -/
def zeroPadded (w n : ℕ) : List Char :=
  let digits := Nat.toDigits 10 n
  List.replicate (w - digits.length) '0' ++ digits

/-- The bytes that are written. -/
def Write.text : Write → List Char
  | .outbuf thread i =>
    ['['] ++ zeroPadded 2 thread ++ [']', ' '] ++ zeroPadded 3 i ++ ['\t']
  | .buffer _ chunk => chunk
  | .newline _ => ['\n']

/-- What the threads share: the counter `a->n`, `highest`, and the output. -/
structure Shared where
  n : ℕ
  highest : ℕ
  out : List Write
  deriving DecidableEq

/-- The statements of `dump` and `write_buffer` that touch what the threads share. -/
inductive Pc where
  /-- `n=a->n++` and the `open` of the file of that number. -/
  | number
  | lockFile
  /-- The head of the loop of `dump`. -/
  | read
  | lockLine
  | lockOrder
  /-- The head of the loop in `write_buffer`. -/
  | turn
  | wait
  | outbuf
  | buffer
  | newline
  | unlockOrder
  | lockHighest
  | highest
  | broadcast
  | unlockHighest
  | unlockLine
  /-- `i++` in `dump`. -/
  | next
  | unlockFile
  | done
  deriving DecidableEq

/-- The local variables of a thread: `n`, `i`, what is left to read of the file, and the `st` bytes
of `inbuf`. -/
structure Local where
  pc : Pc
  n : ℕ
  i : ℕ
  rest : List Char
  inbuf : List Char
  deriving DecidableEq

namespace Local

/-- The thread goes on at `pc`. -/
def goto (l : Local) (pc : Pc) : Local := { l with pc }

/-- A thread before its first statement. -/
def start : Local := ⟨.number, 0, 0, [], []⟩

/-- One `read`, and the test of the loop. A file that cannot be opened reads like an empty one:
the loop ends on `0` and on `-1`. -/
def read (l : Local) : Local :=
  match l.rest.take sz with
  | [] => l.goto .unlockFile
  | c :: chunk => { l with pc := .lockLine, rest := l.rest.drop sz, inbuf := c :: chunk }

end Local

open Monitor

/-- An operation that is only made in one of the modes. -/
def only (b : Prop) [Decidable b] (op : Local → Op Shared Local) (l : Local) : Op Shared Local :=
  if b then op l else .act fun g => (g, l)

/-- A `write` to the output, and the variables of the thread behind it. -/
def write (w : Write) (l : Local) : Op Shared Local := .act fun g => ({ g with out := g.out ++ [w] }, l)

/-- The statement that the thread is at. -/
def dump (m : Mode) (files : ℕ → List Char) (l : Local) : Op Shared Local :=
  match l.pc with
  | .number =>
    .act fun g => ({ g with n := g.n + 1 },
      { l with pc := .lockFile, n := g.n, i := 0, rest := files g.n })
  | .lockFile => only (m = .wfile) .lock (l.goto .read)
  | .read => .act fun g => (g, l.read)
  | .lockLine => only (m = .line) .lock (l.goto .lockOrder)
  | .lockOrder => if m = .order then .lock (l.goto .turn) else .act fun g => (g, l.goto .outbuf)
  | .turn => .act fun g => (g, l.goto (if l.n ≠ g.highest then .wait else .outbuf))
  | .wait => .wait (l.goto .turn)
  | .outbuf => write (.outbuf l.n l.i) (l.goto .buffer)
  | .buffer => write (.buffer l.n l.inbuf) (l.goto .newline)
  | .newline => write (.newline l.n) (l.goto .unlockOrder)
  | .unlockOrder =>
    only (m = .order) .unlock
      (l.goto (if m = .order ∧ l.inbuf.length ≠ sz then .lockHighest else .unlockLine))
  | .lockHighest => .lock (l.goto .highest)
  | .highest => .act fun g => ({ g with highest := g.highest + 1 }, l.goto .broadcast)
  | .broadcast => .broadcast (l.goto .unlockHighest)
  | .unlockHighest => .unlock (l.goto .unlockLine)
  | .unlockLine => only (m = .line) .unlock (l.goto .next)
  | .next => .act fun g => (g, { l with pc := .read, i := l.i + 1 })
  | .unlockFile => only (m = .wfile) .unlock (l.goto .done)
  | .done => .exit

/-- The state of `main` behind the creation of `k` threads. -/
def init (k : ℕ) : State k Shared Local := .init ⟨0, 0, []⟩ .start

end Syncorder
