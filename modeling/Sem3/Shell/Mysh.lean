import Sem3.Util.FdTable
import Mathlib.Data.Int.Notation

/-!
# The shell (`mysh.c`)

What `main` does with the words of one line, once the line is parsed and the wildcards are expanded:
it cuts the words at the pipe signs, creates the pipe, and forks a child for every part. A child
tries the entries of `PATH` one after the other; in every pass it redirects its standard
descriptors and calls `execve`, which comes back only if it fails.

The answers of the system are a parameter. `fork` and `malloc` are taken to succeed, and a path to
fit into the buffer `cmd`. The calls on the mutex are left out, since every process has its own.
-/

namespace Sem3.Shell

/-- `!strncmp(s, t, strlen(t))`. -/
def startsWith (s t : List Char) : Bool := t.isPrefixOf s

/-- The command that `main` runs itself. -/
def cdCmd : List Char := ['c', 'd']

/-- The beginning of a word for a file in the working directory. -/
def thisdir : List Char := ['.', '/']

/-- The beginning of a word for a file in the directory above. -/
def updir : List Char := ['.', '.', '/']

/-- What stands between a directory and a name. -/
def rootdir : List Char := ['/']

/-- The sign in front of a file for standard output. -/
def into : List Char := ['>']

/-- The sign in front of a file for standard input. -/
def outof : List Char := ['<']

/-- The sign between two commands. -/
def piped : List Char := ['|']

/-- The flags that `redirect` passes to `open`. -/
inductive OpenFlags where
  | rdonly
  | wronlyCreat
  | wronlyCreatTrunc
deriving DecidableEq, Repr

/-- What a descriptor refers to: a file that was opened, an end of a pipe, or something that the
shell was started with. -/
inductive Desc where
  | file (name : List Char) (flags : OpenFlags)
  | pipeRead (id : ℕ)
  | pipeWrite (id : ℕ)
  | inherited (n : ℕ)
deriving DecidableEq, Repr

/-- The descriptors of a process. -/
abbrev Fds := FdTable Desc

/-- The answers of the system: whether `pipe` succeeds, and whether `open` and `execve` do in the
pass `s` of a child. -/
structure System where
  pipes : Bool
  opens : ℕ → List Char → OpenFlags → Bool
  execs : ℕ → List Char → List (List Char) → Bool

/-! ## `redirect` -/

/-- The file names `outoff` and `intof` that `redirect` finds at the end of the words. -/
def redirections (split : List (List Char)) : Option (List Char) × Option (List Char) :=
  let t := split.length
  let word := fun i => split.getD i []
  let files : Option (List Char) × Option (List Char) :=
    if t ≥ 5 ∧ startsWith (word (t - 4)) outof ∧ startsWith (word (t - 2)) into then
      (some (word (t - 3)), some (word (t - 1)))
    else (none, none)
  if t ≥ 3 then
    if startsWith (word (t - 2)) outof then (some (word (t - 1)), files.2)
    else if startsWith (word (t - 2)) into then (files.1, some (word (t - 1)))
    else files
  else files

/-- `close(fd)` and then `open(name, flags)`, `none` if the file cannot be opened. -/
def reopen (sys : System) (s : ℕ) (T : Fds) (fd : ℕ) (name : List Char) (flags : OpenFlags) :
    Option Fds :=
  if sys.opens s name flags then some ((T.close fd).assign (.file name flags)) else none

/-- The first part of `redirect`, which opens the files: the words that are left and the table,
`none` if it exits. -/
def openFiles (sys : System) (s : ℕ) (split : List (List Char)) (T : Fds) :
    Option (List (List Char) × Fds) :=
  match redirections split with
  | (some outoff, some intof) => do
    let T' ← reopen sys s T 0 outoff .rdonly
    let T'' ← reopen sys s T' 1 intof .wronlyCreat
    some (split.take (split.length - 4), T'')
  | (some outoff, none) => do
    let T' ← reopen sys s T 0 outoff .rdonly
    some (split.take (split.length - 2), T')
  | (none, some intof) => do
    let T' ← reopen sys s T 1 intof .wronlyCreatTrunc
    some (split.take (split.length - 2), T')
  | (none, none) => some (split, T)

/-- `redirect`: the files are opened, and then the end `pfd` of the pipe takes the place of `tr`,
unless `pfd` is negative. -/
def redirect (sys : System) (s : ℕ) (split : List (List Char)) (T : Fds) (pfd tr : ℤ) :
    Option (List (List Char) × Fds) := do
  let (split', T') ← openFiles sys s split T
  if pfd ≥ 0 then some (split', (T'.close tr.toNat).dup pfd.toNat) else some (split', T')

/-! ## A child -/

/-- A call of `execve`, with the descriptors that are open then. -/
structure Call where
  cmd : List Char
  argv : List (List Char)
  fds : Fds

/-- The path that is put into `cmd`: a word that starts with `./` or `../` stands for itself. -/
def commandPath (path word : List Char) : List Char :=
  if startsWith word thisdir || startsWith word updir then word else path ++ rootdir ++ word

/-- What the child `t` does to its words and its descriptors before it calls `execve` in pass `s`;
`ppfd` are the two ends of the pipe. -/
def childPass (sys : System) (npipes t : ℕ) (ppfd : ℕ × ℕ) (s : ℕ) (split : List (List Char))
    (T : Fds) : Option (List (List Char) × Fds) :=
  if npipes = 2 ∧ t = 0 then do
    let (split', T') ← redirect sys s split T ppfd.2 1
    some (split', (T'.close ppfd.1).close ppfd.2)
  else if npipes = 2 ∧ t = 1 then do
    let (split', T') ← redirect sys s split T ppfd.1 0
    some (split', (T'.close ppfd.1).close ppfd.2)
  else redirect sys s split T (-1) (-1)

/-- The calls of `execve` of the child `t` from pass `s` on. A child without words dereferences
`NULL`. -/
def childCalls (sys : System) (npipes t : ℕ) (ppfd : ℕ × ℕ) :
    ℕ → List (List Char) → List (List Char) → Fds → List Call
  | _, [], _, _ => []
  | _, _ :: _, [], _ => []
  | s, path :: paths, word :: words, T =>
    match childPass sys npipes t ppfd s (word :: words) T with
    | none => []
    | some (split', T') =>
      let cmd := commandPath path word
      { cmd, argv := split', fds := T' } ::
        if sys.execs s cmd split' then []
        else childCalls sys npipes t ppfd (s + 1) paths split' T'

/-! ## A line -/

/-- The words between the pipe signs. -/
def pipesplit (split : List (List Char)) : List (List (List Char)) :=
  split.splitOnP fun word => startsWith word piped

/-- The number of the pipe that a descriptor refers to. -/
def Desc.pipeId : Desc → ℕ
  | .pipeRead id => id
  | .pipeWrite id => id
  | _ => 0

/-- A number for a pipe that no descriptor refers to. -/
def freshPipe (T : Fds) : ℕ :=
  T.entries.foldr (fun d n => max ((d.map Desc.pipeId).getD 0) n) 0 + 1

/-- `pipe`: the numbers of the two ends, and the table behind it. -/
def openPipe (T : Fds) : (ℕ × ℕ) × Fds :=
  let T' := T.assign (.pipeRead (freshPipe T))
  ((T.lowest, T'.lowest), T'.assign (.pipeWrite (freshPipe T)))

/-- What is left of a line: the descriptors of the shell, and the calls of every child. -/
structure Line where
  fds : Fds
  children : List (List Call)

/-- The part of the loop of `main` from the pipe signs to the end of the pass, `none` where it
dereferences `NULL`. -/
def runLine (sys : System) (paths : List (List Char)) (split : List (List Char)) (T : Fds) :
    Option Line :=
  let stages := pipesplit split
  let npipes := stages.length
  if npipes > 2 ∨ npipes = 2 ∧ ¬ sys.pipes then some { fds := T, children := [] }
  else
    let (ppfd, T') : (ℕ × ℕ) × Fds := if npipes = 2 then openPipe T else ((0, 0), T)
    match stages.headD [] with
    | [] => none
    | word :: _ =>
      if word = cdCmd then some { fds := T', children := [] }
      else
        some
          { fds := if npipes = 2 then (T'.close ppfd.1).close ppfd.2 else T'
            children := stages.zipIdx.map fun (stage, t) =>
              childCalls sys npipes t ppfd 0 paths stage T' }

end Sem3.Shell
