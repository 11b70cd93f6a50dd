import Sem3.Syncorder.Syncorder

/-!
# Ordered output

What the output of `syncorder -o` should be: the files in the order of their numbers, each cut into
chunks of `sz` bytes that are numbered from zero.
-/

namespace Syncorder

/-- A text cut into chunks of `sz` bytes, the last of which may be shorter. -/
def chunks (text : List Char) : List (List Char) :=
  match text with
  | [] => []
  | c :: cs => (c :: cs).take sz :: chunks ((c :: cs).drop sz)
termination_by text.length
decreasing_by simp only [List.length_drop, List.length_cons, sz]; omega

/-- A line of the output: the thread that it is for, its number in the file, and its chunk. -/
structure Line where
  thread : ℕ
  i : ℕ
  chunk : List Char

/-- The writes for a line. -/
def Line.writes (l : Line) : List Write :=
  [.outbuf l.thread l.i, .buffer l.thread l.chunk, .newline l.thread]

/-- The lines of a text, numbered from `i` on. -/
def linesFrom (n i : ℕ) (text : List Char) : List Line :=
  ((chunks text).zipIdx i).map fun c => ⟨n, c.2, c.1⟩

/-- The lines of the files `0, …, k - 1`, in this order. -/
def ordered (files : ℕ → List Char) (k : ℕ) : List Line :=
  (List.range k).flatMap fun n => linesFrom n 0 (files n)

open Monitor

variable {k : ℕ}

/-- A thread has not come to the end of `dump`. -/
def Unfinished (s : State k Shared Local) (t : Fin k) : Prop := (s.pos t).pc ≠ .done

/-- A thread waits for `highest` to reach its number. -/
def Waits (s : State k Shared Local) (t : Fin k) : Prop := (s.threads t).status = .asleep

/-- Some thread can take a step: one that does not sleep, and does not need a mutex that is taken.
A thread that wakes up on its own does not count. -/
def Enabled (m : Mode) (files : ℕ → List Char) (s : State k Shared Local) : Prop :=
  ∃ t, step (dump m files) s (.run t) ≠ none

end Syncorder
