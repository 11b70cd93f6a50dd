import Sem3.Util.Int63

/-!
# Quadtrees (`exercise06`)

A quadtree stores points by the quadrants of a rectangle that they lie in. `trav` goes down to the
quadrant of a new point, and cuts a region that has a point already. It recurses without a smaller
region then, so it has a bound on the number of calls here.
-/

namespace Sem3.Quad

/-- The two coordinates of a point. -/
abbrev Point := Int63 × Int63

/-- A part of the plane: empty, with one point, or divided in four. -/
inductive QuadtreeNode where
  | noPoint
  | point (p : Point)
  /-- Bottom left, top left, bottom right and top right. -/
  | qnode (nn np pn pp : QuadtreeNode)
deriving DecidableEq

/-- The size of the plane, and the node for the whole of it. -/
structure Quadtree where
  width : Int63
  height : Int63
  root : QuadtreeNode

/-- `p` is not below and left of the corner `b`, and is below and left of the corner `t`. -/
def between (b t p : Point) : Bool := b.1 ≤ p.1 && p.1 < t.1 && b.2 ≤ p.2 && p.2 < t.2

open QuadtreeNode

/-- `trav` with at most `n` calls; `b` and `t` are the corners of the region. -/
def trav : ℕ → Point → Point → QuadtreeNode → Point → Option QuadtreeNode
  | 0, _, _, _, _ => none
  | n + 1, b, t, qtn, p =>
    let lb : Point := (b.1, b.2)
    let lm : Point := (b.1, (b.2 + t.2) / 2)
    let mb : Point := ((b.1 + t.1) / 2, b.2)
    let mm : Point := ((b.1 + t.1) / 2, (b.2 + t.2) / 2)
    let mt : Point := ((b.1 + t.1) / 2, t.2)
    let rm : Point := (t.1, (b.2 + t.2) / 2)
    let rt : Point := (t.1, t.2)
    match qtn with
    | noPoint => some (point p)
    | point q =>
      let mat := point q
      if q = p then some mat
      else if between lb mm q then trav n b t (qnode mat noPoint noPoint noPoint) p
      else if between lm mt q then trav n b t (qnode noPoint mat noPoint noPoint) p
      else if between mb rm q then trav n b t (qnode noPoint noPoint mat noPoint) p
      else trav n b t (qnode noPoint noPoint noPoint mat) p
    | qnode nn np pn pp =>
      if between lb mm p then (trav n lb mm nn p).map fun nn => qnode nn np pn pp
      else if between lm mt p then (trav n lm mt np p).map fun np => qnode nn np pn pp
      else if between mb rm p then (trav n mb rm pn p).map fun pn => qnode nn np pn pp
      else (trav n mm rt pp p).map fun pp => qnode nn np pn pp

/-- A point is inserted, with a bound on the number of calls of `trav`. -/
def insert (n : ℕ) (p : Point) (qt : Quadtree) : Option Quadtree :=
  (trav n (0, 0) (qt.width, qt.height) qt.root p).map fun root => { qt with root }

example : (insert 9 (2, 2) ⟨16, 16, point (6, 6)⟩).map Quadtree.root =
    some (qnode (qnode (point (2, 2)) noPoint noPoint (point (6, 6))) noPoint noPoint noPoint) := by
  decide

end Sem3.Quad
