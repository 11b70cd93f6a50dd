import Sem3.Util.Comparator
import Sem3.Util.Loop

/-!
# Minimum spanning trees (`exercise07`, 7.6)

A graph is a list of edges with their weights. `primMst` is one call of `prim_mst`, which calls itself
last: `t` is the tree so far, `g` has the edges that may still be picked, and `u` the nodes that are
not reached yet.
-/

namespace Sem3.Mst

variable {V K : Type*} [DecidableEq V] [LinearOrder K]

/-- Two nodes, and the weight of the edge between them. -/
abbrev Edge (V K : Type*) := V × K × V

/-- The edges by weight. -/
def sgbw (g : List (Edge V K)) : List (Edge V K) :=
  Comparator.sort (fun x y => if x.2.1 < y.2.1 then -1 else if x.2.1 > y.2.1 then 1 else 0) g

omit [LinearOrder K] in
/-- The edge starts at a node that an edge of the tree ends at. -/
def connToTree (t : List (Edge V K)) (e : Edge V K) : Bool :=
  (t.map fun x => decide (e.1 = x.2.2)).foldl (· || ·) false

/-- The list without the node. -/
def remFromList (e : V) (l : List V) : List V := l.filter fun x => x ≠ e

/-- The edges that do not end at the node. -/
def remFromGraph (r : V) (g : List (Edge V K)) : List (Edge V K) := g.filter fun x => x.2.2 ≠ r

/-- The arguments of `prim_mst`. -/
structure State (V K : Type*) where
  t : List (Edge V K)
  g : List (Edge V K)
  u : List V

/-- One call of `prim_mst`. -/
def primMst (st : State V K) : Loop.Pass (State V K) (List (Edge V K)) :=
  match st.u with
  | [] => .leave st.t
  | _ =>
    match st.t with
    | [] =>
      match st.g with
      | [] => .leave st.t
      | (s, w, d) :: e => .again ⟨[(s, w, d)], remFromGraph s e, remFromList d st.u⟩
    | _ =>
      match st.g.filter (connToTree st.t) with
      | [] => .leave st.t
      | (s, w, d) :: _ => .again ⟨(s, w, d) :: st.t, remFromGraph d st.g, remFromList d st.u⟩

/-- The arguments of the first call. -/
def start (g : List (Edge V K)) : State V K := ⟨[], sgbw g, (sgbw g).map fun x => x.2.2⟩

/-- The calls end when all edges are gone, at the latest. -/
def mst (g : List (Edge V K)) : List (Edge V K) :=
  (Loop.iterate primMst (g.length + 1) (start g)).getD []

/-- `a76_ex1` -/
example : mst [((0 : ℕ), (1 : ℤ), 1), (0, 4, 2), (1, 2, 2), (1, 1, 3), (2, 3, 3)] =
    [(1, 2, 2), (1, 1, 3), (0, 1, 1)] := by decide

end Sem3.Mst
