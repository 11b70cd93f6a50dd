import Sem3.Crawler.Spec
import Mathlib.Tactic.Common

/-!
# Proofs: the crawler is a zipper

The tree of the crawler is the one that the zipper rebuilds, and its moves are those along the path.
Going down along them leads to the focus (`execon_rebuild`), so each command keeps this
(`crawlrec_of_run`).
-/

namespace Sem3.Crawler

open BinaryTree Ocaml

variable {α : Type*} {z z' : Zipper α} {c : Command α} {cl ml : List (Command α)}

/-- The move that leads into a crumb. -/
def Crumb.move : Crumb α → Command α
  | .left _ _ => .left
  | .right _ _ => .right

/-- The moves from the root to the focus, the last one first. -/
def Zipper.moves (z : Zipper α) : List (Command α) := z.path.map Crumb.move

/-- The whole tree with `t` in the place of the focus. -/
def plugAll (path : List (Crumb α)) (t : BinaryTree α) : BinaryTree α :=
  path.foldl (fun t c => c.plug t) t

theorem plugAll_cons (b : Crumb α) (path : List (Crumb α)) (t : BinaryTree α) :
    plugAll (b :: path) t = plugAll path (b.plug t) := rfl

/-! ## Going down from the root -/

/-- One move goes into the subtree that the crumb leaves out. -/
theorem execon_plug (b : Crumb α) (ml : List (Command α)) (t : BinaryTree α)
    (s : List (BinaryTree α)) :
    execon c (b.move :: ml) (b.plug t) s =
      (execon c ml t s).map fun r => (b.plug r.1, r.2) := by
  cases b <;> simp only [Crumb.move, Crumb.plug, execon] <;> cases execon c ml t s <;> rfl

/-- The moves along a path lead to the place that the path starts from. -/
theorem execon_plugAll (path : List (Crumb α)) (ml : List (Command α)) (t : BinaryTree α)
    (s : List (BinaryTree α)) :
    execon c ((path.map Crumb.move).reverse ++ ml) (plugAll path t) s =
      (execon c ml t s).map fun r => (plugAll path r.1, r.2) := by
  induction path generalizing ml t with
  | nil =>
    show execon c ml t s = _
    cases execon c ml t s <;> rfl
  | cons b path ih =>
    rw [List.map_cons, List.reverse_cons, List.append_assoc, List.singleton_append, plugAll_cons,
      ih, execon_plug]
    cases execon c ml t s <;> rfl

/-- Applying a command at the place that the movements lead to is applying it to the tree in focus,
with the path around the result. -/
theorem execon_rebuild (z : Zipper α) (c : Command α) :
    execon c z.moves.reverse z.rebuild z.stack =
      (appcc c z.focus z.stack).map fun r => (plugAll z.path r.1, r.2) := by
  have h := execon_plugAll (c := c) z.path [] z.focus z.stack
  rw [List.append_nil] at h
  exact h

/-! ## One command -/

/-- The commands that are not moves keep the path, and do to the focus what `appcc` does. -/
theorem crawlrec_edit (hc : c ≠ .left ∧ c ≠ .right ∧ c ≠ .up)
    (happ : appcc c z.focus z.stack = .ok (z'.focus, z'.stack)) (hpath : z'.path = z.path) :
    crawlrec (c :: cl) z.moves z.rebuild z.stack = crawlrec cl z'.moves z'.rebuild z'.stack := by
  have hexec := execon_rebuild z c
  rw [happ] at hexec
  have hmoves : z'.moves = z.moves := by rw [Zipper.moves, Zipper.moves, hpath]
  have hrebuild : z'.rebuild = plugAll z.path z'.focus := by rw [← hpath]; rfl
  rw [hmoves, hrebuild]
  obtain ⟨hl, hr, hu⟩ := hc
  cases c with
  | left => exact absurd rfl hl
  | right => exact absurd rfl hr
  | up => exact absurd rfl hu
  | _ =>
    simp only [crawlrec, appmc, hexec]
    rfl

/-- A command that the zipper takes leaves the crawler with the tree and the moves of the zipper. -/
theorem crawlrec_of_run (h : z.run c = some z') :
    crawlrec (c :: cl) z.moves z.rebuild z.stack = crawlrec cl z'.moves z'.rebuild z'.stack := by
  obtain ⟨focus, path, stack⟩ := z
  cases c with
  | left =>
    cases focus with
    | nil => cases h
    | node v tl tr => cases h; rfl
  | right =>
    cases focus with
    | nil => cases h
    | node v tl tr => cases h; rfl
  | up =>
    cases path with
    | nil => cases h
    | cons b path => cases h; rfl
  | new n => cases h; exact crawlrec_edit (by simp) rfl rfl
  | delete => cases h; exact crawlrec_edit (by simp) rfl rfl
  | push => cases h; exact crawlrec_edit (by simp) rfl rfl
  | pop =>
    cases stack with
    | nil => cases h
    | cons t stack => cases h; exact crawlrec_edit (by simp) rfl rfl

/-! ## A list of commands -/

/-- If the commands can be run on the zipper, `crawlrec` gives the tree that it stands for then. -/
theorem crawlrec_eq_rebuild (h : cl.foldlM Zipper.run z = some z') :
    crawlrec cl z.moves z.rebuild z.stack = .ok z'.rebuild := by
  induction cl generalizing z with
  | nil =>
    cases h
    rfl
  | cons c cl ih =>
    rw [List.foldlM_cons, Option.bind_eq_bind, Option.bind_eq_some_iff] at h
    obtain ⟨m, hm, hrest⟩ := h
    rw [crawlrec_of_run hm, ih hrest]

/-- If the zipper takes all commands, the crawler ends with the tree of the zipper. -/
theorem crawl_eq_rebuild (t : BinaryTree α) (cl : List (Command α)) {z : Zipper α}
    (h : cl.foldlM Zipper.run (.ofTree t) = some z) : crawl cl t = .ok z.rebuild :=
  crawlrec_eq_rebuild h

/-- The left subtree is pushed, and popped in the place of its own right subtree. -/
theorem crawl_eq_rebuild_push_pop :
    crawl [.left, .push, .right, .pop] (node 4 (node 2 nil nil) nil) =
      .ok (node 4 (node 2 nil (node 2 nil nil)) nil) :=
  crawl_eq_rebuild (node 4 (node 2 nil nil) nil) [.left, .push, .right, .pop]
    (z := ⟨node 2 nil nil, [.right 2 nil, .left 4 nil], []⟩) rfl

end Sem3.Crawler
