import Sem3.Blatt06.Parser
import Sem3.Shell.Main

/-!
# The first shell (`blatt06/mysh.c`)

`main` as a machine that takes a step for every line, every `fork` and every `wait`. What a child does
with its arguments is left out. The machine stops (`none`) where the shell ends or dereferences `NULL`,
and where the answer is one that the system cannot give. `fork` and `malloc` are taken to succeed.

`processList` is kept as the sequence of the numbers in the list, whose nodes `Shell.ProcessList`
follows, and `kids` are the children that the system knows of: those that have been forked and not been
waited for.
-/

namespace Sem3.Blatt06

/-- Where `main` is: at a prompt, before `fork` with the arguments of the child, before `wait`, or behind
its loop. -/
inductive Phase where
  | prompt
  | fork (args : List (List Char))
  | wait
  | stopped

/-- What the shell keeps from one prompt to the next: where it stands, the children that are not
waited for, and the list of process numbers. -/
structure Mysh where
  phase : Phase
  kids : List ℤ
  processList : List ℤ

/-- What comes from outside: a line that is typed in, and the results of `fork` and `wait`. -/
inductive Act where
  | line (text : List Char)
  | fork (pid : ℤ)
  | wait (retPid : ℤ)

/-- The string that `fgets` has left in `buf`, up to the first newline. -/
def lineOf (text : List Char) : List Char := text.takeWhile fun ch => ch ≠ Shell.nul ∧ ch ≠ '\n'

/-- The shell goes on to the next call that depends on something outside. `none` if it does not wait
for this answer. -/
def Mysh.step (env : List (List Char)) (s : Mysh) (act : Act) : Option Mysh :=
  match s.phase, act with
  | .prompt, .line text =>
    match parse env (lineOf text) [] with
    | some (.returned more paramList) =>
      let stop := !more
      if paramList ≠ [] ∧ ¬ stop then some { s with phase := .fork paramList }
      else if ¬ stop then some { s with phase := .wait }
      else some { s with phase := .stopped }
    | _ => none
  | .fork _, .fork pid =>
    if pid ∈ s.kids ∨ pid ≤ 0 then none
    else
      some { phase := .wait, kids := s.kids ++ [pid], processList := s.processList ++ [pid] }
  | .wait, .wait retPid =>
    if ¬ Shell.CanWait s.kids retPid then none
    else
      (Shell.reap s.processList retPid).map fun processList =>
        { phase := .prompt, kids := s.kids.erase retPid, processList }
  | _, _ => none

/-- The shell at its first prompt. -/
def Mysh.init : Mysh := { phase := .prompt, kids := [], processList := [] }

/-! ## What a prompt should find -/

/-- A call of `wait` has a child to wait for, and what it gives is found in the list; at a prompt no
child is left. -/
structure Matched (s : Mysh) : Prop where
  wait : s.phase = .wait →
    s.kids ≠ [] ∧ ∀ retPid, Shell.CanWait s.kids retPid → Shell.reap s.processList retPid ≠ none
  prompt : s.phase = .prompt → s.kids = []

/-- The line is accepted, is not `exit`, and has no parameter. -/
def Wordless (env : List (List Char)) : Act → Prop
  | .line text => parse env (lineOf text) [] = some (.returned true [])
  | _ => False

end Sem3.Blatt06
