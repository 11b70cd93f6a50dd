import Sem3.Mst.Prim
import Sem3.Util.SpanningTree

/-!
# Minimum spanning trees of a list of edges

The edges can be used in both directions.
-/

namespace Sem3.Mst

open SpanningTree

variable {V K : Type*} [DecidableEq V] [AddCommGroup K] [LinearOrder K]

/-- The two nodes of the edge. -/
def ends (e : Edge V K) : V × V := (e.1, e.2.2)

/-- The weight of the edge. -/
def weight (e : Edge V K) : K := e.2.1

/-- No edge is listed twice, and the edges are a minimum spanning tree of the graph. -/
structure IsMst (g r : List (Edge V K)) : Prop where
  nodup : r.Nodup
  isMinimum : IsMinimum ends weight g.toFinset r.toFinset

/-- The nodes of the tree. -/
def State.reached (st : State V K) : Set V := nodes ends st.t.toFinset

/-- The edge that `primMst` picks, if there is one, when the tree has an edge already. -/
def State.picks (st : State V K) : Option (Edge V K) :=
  if st.u = [] then none else (st.g.filter (connToTree st.t)).head?

/-- The edge that is picked is a lightest edge of the graph between a node of the tree and another
one; if no edge is picked, there is no such edge. -/
def Lightest (g : List (Edge V K)) (st : State V K) : Prop :=
  match st.picks with
  | some e => Crosses ends st.reached e ∧ ∀ f ∈ g, Crosses ends st.reached f → weight e ≤ weight f
  | none => ∀ f ∈ g, ¬ Crosses ends st.reached f

end Sem3.Mst
