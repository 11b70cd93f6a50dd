import Sem3.Shell.Main
import Sem3.Shell.Spec
import Mathlib.Data.Set.Basic

/-!
# What the shell keeps from one prompt to the next

The descriptors, the children and the environment that a line should leave as they were, and the
lines that should reach `execve` word by word.
-/

namespace Sem3.Shell

/-- The descriptors that are open. -/
def opened (T : Fds) : Set ℕ := {fd | T.get fd ≠ none}

/-- The descriptor `fd` refers to the end `d` of the pipe `id`, and no other descriptor refers to the
pipe. -/
def Plumbed (T : Fds) (id fd : ℕ) (d : Desc) : Prop :=
  T.get fd = some d ∧
    ∀ fd', T.get fd' = some (.pipeRead id) ∨ T.get fd' = some (.pipeWrite id) → fd' = fd

/-- Both ends of the pipe `id` are open, at `ppfd` and nowhere else, and so are standard input and
output. -/
structure PipeOpen (T : Fds) (id : ℕ) (ppfd : ℕ × ℕ) : Prop where
  read : T.get ppfd.1 = some (.pipeRead id)
  write : T.get ppfd.2 = some (.pipeWrite id)
  only : ∀ fd, T.get fd = some (.pipeRead id) ∨ T.get fd = some (.pipeWrite id) →
    fd = ppfd.1 ∨ fd = ppfd.2
  not_std : 2 ≤ ppfd.1 ∧ 2 ≤ ppfd.2
  stdin : T.get 0 ≠ none
  stdout : T.get 1 ≠ none

/-- The words of a line, as `main` has them before it looks for pipe signs. -/
def Session.words (s : Session) (a : Answers) (text : List Char) : Option (List (List Char)) :=
  match parse a.before s.env (chomp text) [] with
  | some (.returned (word :: words)) => some (wildcard a.glob (word :: words))
  | _ => none

/-- The line is a pipeline of two stages, of which the first is `cd`, and the pipe is created. -/
def CdInPipe (s : Session) : Act → Prop
  | .line a text => a.sys.pipes ∧ ∃ split args stage,
      s.words a text = some split ∧ pipesplit split = [cdCmd :: args, stage]
  | _ => False

/-- The line does not contain the name of the command `cd`. -/
def NoCd : Act → Prop
  | .line _ text => ¬ cdCmd <:+: text
  | _ => True

/-- `PATH` has the value `v` in the environment, and its entry is the one with the number `i`. -/
structure Environ.HasPath (E : Environ) (i : ℕ) (v : List Char) : Prop where
  found : getenv E.entries pathvar = some i
  entry : E.entries[i]? = some (pathvar ++ ['='] ++ v)

/-- In the part of the value that `strtok` is given no component stands before a delimiter. -/
def PathSafe (value : List Char) : Prop :=
  ':' ∉ (value.drop pathvar.length).dropWhile (· = ':')

/-- The parts of a string between the delimiters, without the empty ones. -/
def parts (delim : Char) (u : List Char) : List (List Char) :=
  (u.splitOnP (· = delim)).filter (· ≠ [])

/-- The string that the first `strtok` of `main` is given, where `PATH` is the entry `i`: it starts
`strlen(pathvar)` characters behind the start of the value. -/
def Environ.searched (E : Environ) (i : ℕ) : List Char :=
  cstring E.memory (E.offset i + (pathvar.length + 1) + pathvar.length)

/-- The answers of a system on which files can be opened and no command is found. -/
structure NotFound (sys : System) : Prop where
  opens : ∀ s name flags, sys.opens s name flags = true
  execs : ∀ s cmd argv, sys.execs s cmd argv = false

/-- The calls of `execve` for the command `word`, where `cs` are the components of `PATH`: a word
without `/` is tried in all of them in their order, until one call succeeds, and any other word is
tried as it is. -/
def LooksUp (calls : System → Option (List Call)) (cs : List (List Char)) (word : List Char) :
    Prop :=
  ∀ sys, ∃ l, calls sys = some l ∧
    if '/' ∈ word then (∀ call ∈ l, call.cmd = word) ∧ (NotFound sys → l ≠ [])
    else l.map Call.cmd <+: cs.map (· ++ '/' :: word) ∧
      (NotFound sys → l.map Call.cmd = cs.map (· ++ '/' :: word))

/-- The word starts with `./` or `../`. -/
def IsRelative (word : List Char) : Prop :=
  startsWith word thisdir = true ∨ startsWith word updir = true

/-! ## Single quotes -/

/-- Each word between single quotes, joined with single spaces. -/
def quoteLine (ws : List (List Char)) : List Char :=
  [' '].intercalate (ws.map fun w => '\'' :: (w ++ ['\'']))

/-- The text that is typed in is read as one line, and makes the shell fork one child without a
redirection, which calls `execve` with exactly these arguments and the descriptors of the shell. -/
def RunsAs (s : Session) (a : Answers) (typed : List Char) (argv : List (List Char)) : Prop :=
  fgets inSz typed = (typed, []) ∧ ∃ s' stage,
    s.step (.line a typed) = some s' ∧ s'.phase = .fork 1 (0, 0) [(stage, 0)] ∧
    redirections stage = (none, none) ∧
    childCalls a.sys 1 0 (0, 0) 0 s.paths stage s'.fds ≠ [] ∧
    ∀ call ∈ childCalls a.sys 1 0 (0, 0) 0 s.paths stage s'.fds,
      call.argv = argv ∧ call.fds = s.fds

/-- The names that match a word are none, or the word itself. -/
def Unmatched (glob : List Char → List (List Char)) (word : List Char) : Prop :=
  glob word = [] ∨ glob word = [word]

/-- The last word but one, of at least three, is not the sign of a redirection. -/
def Undirected (split : List (List Char)) : Prop :=
  split.length ≥ 3 → startsWith (split.getD (split.length - 2) []) outof = false ∧
    startsWith (split.getD (split.length - 2) []) into = false

/-- A command that `main` does not treat itself. -/
def IsCommand (word : List Char) : Prop := word ≠ cdCmd ∧ startsWith word exitCmd = false

instance (word : List Char) : Decidable (IsCommand word) :=
  inferInstanceAs (Decidable (word ≠ cdCmd ∧ startsWith word exitCmd = false))

/-- A string that is not changed by the parser between single quotes. -/
def Plainly (w : List Char) : Prop :=
  w ≠ [] ∧ ∀ c ∈ w, ¬ IsQuote c ∧ c ≠ '\\' ∧ c ≠ '$' ∧ c ≠ nul

/-! ## Redirections -/

/-- At most one redirection of standard input and at most one of standard output, in either order. -/
inductive Redirection where
  | none
  | input (f : List Char)
  | output (g : List Char)
  | inputOutput (f g : List Char)
  | outputInput (g f : List Char)
deriving DecidableEq, Repr

namespace Redirection

/-- The words of the redirections, as they stand at the end of a command. -/
def words : Redirection → List (List Char)
  | .none => []
  | .input f => [outof, f]
  | .output g => [into, g]
  | .inputOutput f g => [outof, f, into, g]
  | .outputInput g f => [into, g, outof, f]

/-- The file that standard input comes from. -/
def stdin : Redirection → Option (List Char)
  | .input f | .inputOutput f _ | .outputInput _ f => some f
  | _ => Option.none

/-- The file that standard output goes to. -/
def stdout : Redirection → Option (List Char)
  | .output g | .inputOutput _ g | .outputInput g _ => some g
  | _ => Option.none

end Redirection

/-- The word does not look like the sign of a redirection. -/
def NoSign (word : List Char) : Prop :=
  startsWith word outof = false ∧ startsWith word into = false

/-- The redirection is carried out in the table: standard input reads from its file, standard output
writes to its file, which is emptied, and a standard descriptor that is not redirected stays as it
is. -/
structure Redirected (r : Redirection) (T T' : Fds) : Prop where
  input : ∀ f, r.stdin = some f → ∃ flags, T'.get 0 = some (.file f flags)
  output : ∀ g, r.stdout = some g → T'.get 1 = some (.file g .wronlyCreatTrunc)
  input_none : r.stdin = none → T'.get 0 = T.get 0
  output_none : r.stdout = none → T'.get 1 = T.get 1
  stderr : T'.get 2 = T.get 2

/-- `redirect` leaves the words of the command and carries the redirection out. -/
def Redirects (sys : System) (s : ℕ) (words : List (List Char)) (r : Redirection) (T : Fds)
    (pfd tr : ℤ) : Prop :=
  ∃ T', redirect sys s (words ++ r.words) T pfd tr = some (words, T') ∧ Redirected r T T'

end Sem3.Shell
