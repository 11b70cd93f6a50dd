import Sem3.Shell.Mysh
import Sem3.Shell.Startup

/-!
# The loop of the shell (`mysh.c`)

`main` as a machine that takes a step for every line, every `fork` and every `wait`. What the system
answers comes with the step, so a run is a sequence of answers. The machine stops (`none`) where the
shell ends or dereferences `NULL`, and where the answer is one that the system cannot give.

`prcs` is kept as the sequence of the numbers in the list, whose nodes `ProcessList` follows, and
`kids` are the children that the system knows of: those that have been forked and not been waited for.
`events` records the calls that are passed the environment.
-/

namespace Sem3.Shell

/-- The size of the buffer `in`. -/
def inSz : ℕ := 1024

/-- The beginning of a word that ends the shell. -/
def exitCmd : List Char := ['e', 'x', 'i', 't']

/-- The name of the variable for the working directory. -/
def pwdvar : List Char := ['P', 'W', 'D']

/-! ## A line of the input -/

/-- `fgets(in, n, stdin)`: the text that is read, and the rest of the input. -/
def fgets : ℕ → List Char → List Char × List Char
  | 0, input => ([], input)
  | 1, input => ([], input)
  | _ + 2, [] => ([], [])
  | n + 2, ch :: input =>
    if ch = '\n' then (['\n'], input)
    else
      let (text, rest) := fgets (n + 1) input
      (ch :: text, rest)

/-- The text of `in` without the newline at its end. -/
def chomp (text : List Char) : List Char :=
  let line := text.takeWhile (· ≠ nul)
  if line.getLast? = some '\n' then line.dropLast else line

/-- `wildcard`; `glob` are the path names that match a word. The copies of the words are made in
buffers of `strlen` bytes, without room for the terminator; the sizes are not part of the model. -/
def wildcard (glob : List Char → List (List Char)) (split : List (List Char)) : List (List Char) :=
  split.flatMap fun word => if (glob word).length = 0 then [word] else glob word

/-! ## The machine -/

/-- A call that is passed `envp`. -/
inductive Event where
  | parse (line : List Char) (env : List (List Char))
  | execve (call : Call) (env : List (List Char))

/-- The environment that the call is passed. -/
def Event.env : Event → List (List Char)
  | .parse _ env => env
  | .execve _ env => env

/-- Where `main` is: at a prompt, in the loop that forks the children, with the stages that are left
and the ends of the pipe, or in the loop that waits for them. -/
inductive Phase where
  | prompt
  | fork (npipes : ℕ) (ppfd : ℕ × ℕ) (stages : List (List (List Char) × ℕ))
  | wait

/-- The variables of `main`, what the system knows of the shell, and the calls that were passed the
environment. -/
structure Session where
  phase : Phase
  paths : List (List Char)
  env : List (List Char)
  fds : Fds
  kids : List ℤ
  prcs : List ℤ
  /-- `pipesplit` was not allocated in the last pass, so it is freed a second time. -/
  stale : Bool
  events : List Event

/-- The answers of the system to the calls for a line. -/
structure Answers where
  sys : System
  glob : List Char → List (List Char)
  /-- `strlen(env[ei]-nd-1)` in `parse`. -/
  before : ℕ → ℕ → ℕ
  /-- The working directory behind a successful `chdir`. -/
  chdir : List Char → Option (List Char)
  /-- `free` comes back from a pointer that is not allocated. -/
  freed : Bool

/-- What comes from outside: a line with the answers to its calls, and the results of `fork` and
`wait`. -/
inductive Act where
  | line (answers : Answers) (text : List Char)
  | fork (p : ℤ) (sys : System)
  | wait (p : ℤ)
  /-- The end of a loop. -/
  | next

/-- `execute_cd`: the environment behind it. `setenv` replaces the first entry for `PWD`, if there is
one among those that `envp` points to. -/
def executeCd (chdir : List Char → Option (List Char)) (arg : Option (List Char))
    (env : List (List Char)) : List (List Char) :=
  match arg.bind chdir, getenv env pwdvar with
  | some wd, some i => env.set i (pwdvar ++ ['='] ++ wd)
  | _, _ => env

/-- `main` from the words of a line to the loop that forks. -/
def Session.runWords (s : Session) (a : Answers) (split : List (List Char)) : Option Session :=
  let stages := pipesplit split
  let npipes := stages.length
  if npipes > 2 ∨ npipes = 2 ∧ ¬ a.sys.pipes then some s
  else
    let (ppfd, T) : (ℕ × ℕ) × Fds := if npipes = 2 then openPipe s.fds else ((0, 0), s.fds)
    match stages.headD [] with
    | [] => none
    | word :: args =>
      if word = cdCmd then
        if args.length ≥ 2 then some { s with fds := T }
        else some { s with fds := T, env := executeCd a.chdir args.head? s.env }
      else some { s with phase := .fork npipes ppfd stages.zipIdx, fds := T }

/-- `main` from a line of the input to its words. -/
def Session.readLine (s : Session) (a : Answers) (text : List Char) : Option Session :=
  let line := chomp text
  let s := { s with events := s.events ++ [Event.parse line s.env] }
  match parse a.before s.env line [] with
  | some (.returned []) => some { s with stale := true }
  | some (.returned (word :: words)) =>
    let split := wildcard a.glob (word :: words)
    if startsWith (split.headD []) exitCmd then none
    else { s with stale := false }.runWords a split
  | _ => none

/-- `list_find` with `cmppid`, and `list_remove` of what it finds; `none` if it finds nothing. -/
def reap (prcs : List ℤ) (p : ℤ) : Option (List ℤ) :=
  (prcs.findIdx? fun q => q - p = 0).map prcs.eraseIdx

/-- The answers that `wait` can give: a child, or `-1` if there is none. -/
def CanWait (kids : List ℤ) (p : ℤ) : Prop := if kids = [] then p = -1 else p ∈ kids

instance (kids : List ℤ) (p : ℤ) : Decidable (CanWait kids p) :=
  inferInstanceAs (Decidable (if kids = [] then p = -1 else p ∈ kids))

/-- One step of `main`. -/
def Session.step (s : Session) (act : Act) : Option Session :=
  match s.phase, act with
  | .prompt, .line a text => if s.stale ∧ ¬ a.freed then none else s.readLine a text
  | .fork npipes ppfd ((stage, t) :: stages), .fork p sys =>
    if p ∈ s.kids ∨ p ≤ 0 then none
    else
      let calls := childCalls sys npipes t ppfd 0 s.paths stage s.fds
      some
        { s with
          phase := .fork npipes ppfd stages
          kids := s.kids ++ [p]
          prcs := s.prcs ++ [p]
          events := s.events ++ calls.map fun call => .execve call s.env }
  | .fork npipes ppfd [], .next =>
    let fds := if npipes = 2 then (s.fds.close ppfd.1).close ppfd.2 else s.fds
    some { s with phase := .wait, fds }
  | .wait, .wait p =>
    if s.prcs = [] ∨ ¬ CanWait s.kids p then none
    else (reap s.prcs p).map fun prcs => { s with kids := s.kids.erase p, prcs }
  | .wait, .next => if s.prcs = [] then some { s with phase := .prompt } else none
  | _, _ => none

/-- The shell at its first prompt. -/
def Session.init (paths env : List (List Char)) (fds : Fds) : Session :=
  { phase := .prompt, paths, env, fds, kids := [], prcs := [], stale := false, events := [] }

end Sem3.Shell
