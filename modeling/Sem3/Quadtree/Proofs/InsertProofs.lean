import Sem3.Quadtree.Spec
import Mathlib.Tactic.Tauto

/-!
# Proofs: quadtrees are tries

`trav` is the insertion into a trie (`trav_toTrie`). So the quadtree of a set of points is determined
by the set, and there is one if and only if the points are separated.
-/

namespace Sem3.Quad

open QuadtreeNode

variable {w h : Int63} {p q : Point} {r : Region} {n : ℕ} {S : Finset Point} {qt qt' : Quadtree}
  {qtn qtn' : QuadtreeNode} {ps : List Point}

/-! ## One call -/

/-- The node with a point in one of its quadrants. -/
def QuadtreeNode.single (q : Point) : Quadrant → QuadtreeNode
  | .nn => qnode (point q) noPoint noPoint noPoint
  | .np => qnode noPoint (point q) noPoint noPoint
  | .pn => qnode noPoint noPoint (point q) noPoint
  | .pp => qnode noPoint noPoint noPoint (point q)

theorem trav_point (n : ℕ) (r : Region) (q p : Point) :
    trav (n + 1) r.b r.t (point q) p =
      if q = p then some (point q) else trav n r.b r.t (.single q (r.quadrant q)) p := by
  have heq : trav (n + 1) r.b r.t (point q) p =
      if q = p then some (point q)
      else if between (r.child .nn).b (r.child .nn).t q then trav n r.b r.t (.single q .nn) p
      else if between (r.child .np).b (r.child .np).t q then trav n r.b r.t (.single q .np) p
      else if between (r.child .pn).b (r.child .pn).t q then trav n r.b r.t (.single q .pn) p
      else trav n r.b r.t (.single q .pp) p := rfl
  rw [heq]
  unfold Region.quadrant
  split_ifs <;> rfl

/-- The children of a node, by the quadrants that they are stored for. -/
def children (nn np pn pp : QuadtreeNode) : Quadrant → QuadtreeNode
  | .nn => nn
  | .np => np
  | .pn => pn
  | .pp => pp

/-- The node with these children. -/
def ofChildren (f : Quadrant → QuadtreeNode) : QuadtreeNode := qnode (f .nn) (f .np) (f .pn) (f .pp)

/-- A point goes into the quadrant that it lies in. -/
theorem trav_qnode (n : ℕ) (r : Region) (f : Quadrant → QuadtreeNode) (p : Point) :
    trav (n + 1) r.b r.t (ofChildren f) p =
      (trav n (r.child (r.quadrant p)).b (r.child (r.quadrant p)).t (f (r.quadrant p)) p).map
        fun t => ofChildren (Function.update f (r.quadrant p) t) := by
  have heq : trav (n + 1) r.b r.t (ofChildren f) p =
      if between (r.child .nn).b (r.child .nn).t p then
        (trav n (r.child .nn).b (r.child .nn).t (f .nn) p).map fun t =>
          ofChildren (Function.update f .nn t)
      else if between (r.child .np).b (r.child .np).t p then
        (trav n (r.child .np).b (r.child .np).t (f .np) p).map fun t =>
          ofChildren (Function.update f .np t)
      else if between (r.child .pn).b (r.child .pn).t p then
        (trav n (r.child .pn).b (r.child .pn).t (f .pn) p).map fun t =>
          ofChildren (Function.update f .pn t)
      else
        (trav n (r.child .pp).b (r.child .pp).t (f .pp) p).map fun t =>
          ofChildren (Function.update f .pp t) := rfl
  rw [heq]
  unfold Region.quadrant
  split_ifs <;> rfl

theorem toTrie_ofChildren (f : Quadrant → QuadtreeNode) :
    (ofChildren f).toTrie = .node fun i => (f i).toTrie := by
  rw [ofChildren, toTrie]
  congr 1
  funext i
  cases i <;> rfl

theorem single_toTrie (r : Region) (q : Point) :
    (QuadtreeNode.single q (r.quadrant q)).toTrie = .node (division.single r q) := by
  have hpart : division.part r q = r.quadrant q := rfl
  cases hq : r.quadrant q <;>
  · rw [QuadtreeNode.single, toTrie]
    congr 1
    funext i
    rw [Division.single, hpart, hq]
    cases i <;> rfl

/-- `trav` is the insertion into the trie. -/
theorem trav_toTrie (n : ℕ) (r : Region) (qtn : QuadtreeNode) (p : Point) :
    (trav n r.b r.t qtn p).map toTrie = division.insert p n r qtn.toTrie := by
  induction n generalizing r qtn with
  | zero => rfl
  | succ n ih =>
    cases qtn with
    | noPoint => rfl
    | point q =>
      rw [trav_point, toTrie, Division.insert]
      split_ifs
      · rfl
      · rw [ih, single_toTrie]
    | qnode nn np pn pp =>
      have hnode : qnode nn np pn pp = ofChildren (children nn np pn pp) := rfl
      rw [hnode, trav_qnode, toTrie_ofChildren, Division.insert, Option.map_map]
      have ih' := ih (r.child (r.quadrant p)) (children nn np pn pp (r.quadrant p))
      have hpart : division.part r p = r.quadrant p := rfl
      have hchild : division.child r (r.quadrant p) = r.child (r.quadrant p) := rfl
      rw [hpart, hchild, ← ih', Option.map_map]
      congr 1
      funext t
      simp only [Function.comp_apply, toTrie_ofChildren]
      congr 1
      funext i
      exact Function.apply_update (fun _ => toTrie) (children nn np pn pp) (r.quadrant p) t i

end Sem3.Quad
