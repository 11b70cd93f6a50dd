import Sem3.Util.Ocaml
import Mathlib.Data.Tree.Basic

/-!
# The tree crawler (`exercise06`)

`crawl` edits a binary tree by commands that move in it. It keeps the whole tree and the moves from
the root, the last one first, and goes down from the root again for every command that is not a
move. The values of the nodes are not looked at.
-/

namespace Sem3.Crawler

open Ocaml BinaryTree

/-- The commands of the crawler. -/
inductive Command (α : Type*) where
  | left
  | right
  | up
  | new (n : α)
  | delete
  | push
  | pop
deriving DecidableEq, Repr

variable {α : Type*}

/-- The moves from the root behind a command. -/
def appmc (ml : List (Command α)) (c : Command α) : Except Exn (List (Command α)) :=
  match c with
  | .left => .ok (.left :: ml)
  | .right => .ok (.right :: ml)
  | .up =>
    match ml with
    | _ :: mlr => .ok mlr
    | [] => .error .matchFailure
  | _ => .ok ml

/-- A command that is not a move, at the place that it is meant for. -/
def appcc (c : Command α) (t : BinaryTree α) (s : List (BinaryTree α)) :
    Except Exn (BinaryTree α × List (BinaryTree α)) :=
  match c with
  | .new n => .ok (node n nil nil, s)
  | .delete => .ok (nil, s)
  | .push => .ok (t, t :: s)
  | .pop =>
    match s with
    | sb :: sr => .ok (sb, sr)
    | [] => .error .matchFailure
  | _ => .error (.failure "No movements allowed in appcc")

/-- `execon c ml t s` applies `c` at the place that the movements `ml` lead to, and rebuilds the
tree around it. -/
def execon (c : Command α) (ml : List (Command α)) (t : BinaryTree α) (s : List (BinaryTree α)) :
    Except Exn (BinaryTree α × List (BinaryTree α)) :=
  match ml with
  | [] => appcc c t s
  | m :: mlr =>
    match m, t with
    | _, nil => .error (.failure "No movement allowed on Empty")
    | .left, node v tl tr => do
      let (nt, ns) ← execon c mlr tl s
      return (node v nt tr, ns)
    | .right, node v tl tr => do
      let (nt, ns) ← execon c mlr tr s
      return (node v tl nt, ns)
    | _, node _ _ _ => .error (.failure "Non movement in movement list")

/-- The recursion over the commands: a movement is only noted, and any other command is applied
behind the movements noted so far. -/
def crawlrec (cl ml : List (Command α)) (t : BinaryTree α) (s : List (BinaryTree α)) :
    Except Exn (BinaryTree α) :=
  match cl with
  | [] => .ok t
  | c :: clr => do
    let nml ← appmc ml c
    match c with
    | .left | .right | .up => crawlrec clr nml t s
    | _ =>
      let (nt, ns) ← execon c ml.reverse t s
      crawlrec clr ml nt ns

/-- The commands are run from the root, with no movement noted and nothing pushed. -/
def crawl (cl : List (Command α)) (t : BinaryTree α) : Except Exn (BinaryTree α) :=
  crawlrec cl [] t []

end Sem3.Crawler
