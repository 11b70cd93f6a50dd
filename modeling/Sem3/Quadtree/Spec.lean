import Sem3.Quadtree.Quadtree
import Sem3.Util.Trie

/-!
# What a quadtree represents

A quadtree of a set of points has each of them once, in the quadrants that it lies in, and cuts only
regions with more than one point. A region that is cut into quadrants is a division, and a quadtree
a trie.
-/

namespace Sem3.Quad

open QuadtreeNode

/-- `insert p qt` ends, with `qt'`. -/
def Inserts (p : Point) (qt qt' : Quadtree) : Prop := ∃ n, insert n p qt = some qt'

/-- The points are inserted one after the other, and all calls end. -/
def InsertsAll : List Point → Quadtree → Quadtree → Prop
  | [], qt, qt' => qt = qt'
  | p :: ps, qt, qt' => ∃ m, Inserts p qt m ∧ InsertsAll ps m qt'

/-- A quadtree without points. -/
def empty (width height : Int63) : Quadtree := ⟨width, height, noPoint⟩

/-- `0 <= x < width` and `0 <= y < height`. -/
def InBounds (width height : Int63) (p : Point) : Prop :=
  (0 ≤ p.1 ∧ p.1 < width) ∧ 0 ≤ p.2 ∧ p.2 < height

/-! ## Quadrants -/

/-- The four quadrants. -/
inductive Quadrant where
  | nn
  | np
  | pn
  | pp
deriving DecidableEq

/-- The corners of a region. -/
structure Region where
  b : Point
  t : Point

/-- The middle of an interval, as the program computes it. -/
def half (a b : Int63) : Int63 := (a + b) / 2

/-- The part of the region that a quadrant takes. -/
def Region.child (r : Region) : Quadrant → Region
  | .nn => ⟨r.b, (half r.b.1 r.t.1, half r.b.2 r.t.2)⟩
  | .np => ⟨(r.b.1, half r.b.2 r.t.2), (half r.b.1 r.t.1, r.t.2)⟩
  | .pn => ⟨(half r.b.1 r.t.1, r.b.2), (r.t.1, half r.b.2 r.t.2)⟩
  | .pp => ⟨(half r.b.1 r.t.1, half r.b.2 r.t.2), r.t⟩

/-- The quadrant that `trav` chooses for a point: the last one if it is in none of the others. -/
def Region.quadrant (r : Region) (p : Point) : Quadrant :=
  if between (r.child .nn).b (r.child .nn).t p then .nn
  else if between (r.child .np).b (r.child .np).t p then .np
  else if between (r.child .pn).b (r.child .pn).t p then .pn
  else .pp

/-- The division of a region into its quadrants, for the tries of points. -/
def division : Division Region Quadrant Point := ⟨Region.quadrant, Region.child⟩

/-- The rectangle of a quadtree. -/
def Region.whole (width height : Int63) : Region := ⟨(0, 0), (width, height)⟩

/-- Any two of the points come to lie in different quadrants when the rectangle is cut often enough,
as the machine computes the middle. -/
def Separated (width height : Int63) (ps : List Point) : Prop :=
  division.Separated (.whole width height) {p | p ∈ ps}

/-! ## Quadtrees as tries -/

/-- The trie that a node stands for. -/
def QuadtreeNode.toTrie : QuadtreeNode → Trie Quadrant Point
  | noPoint => .empty
  | point p => .leaf p
  | qnode nn np pn pp => .node fun
    | .nn => nn.toTrie
    | .np => np.toTrie
    | .pn => pn.toTrie
    | .pp => pp.toTrie

/-- The points of a quadtree, from the first quadrant to the last one. -/
def QuadtreeNode.points : QuadtreeNode → List Point
  | noPoint => []
  | point p => [p]
  | qnode nn np pn pp => nn.points ++ np.points ++ pn.points ++ pp.points

/-- All points lie in the region, and in the quadrants that they are stored in. -/
def QuadtreeNode.Placed (r : Region) (qtn : QuadtreeNode) : Prop :=
  (∀ p ∈ qtn.points, between r.b r.t p) ∧
    match qtn with
    | qnode nn np pn pp =>
      nn.Placed (r.child .nn) ∧ np.Placed (r.child .np) ∧ pn.Placed (r.child .pn) ∧
        pp.Placed (r.child .pp)
    | _ => True

/-- Every region that is cut has at least two points. -/
def QuadtreeNode.Crowded : QuadtreeNode → Prop
  | qnode nn np pn pp =>
    2 ≤ (qnode nn np pn pp).points.length ∧ nn.Crowded ∧ np.Crowded ∧ pn.Crowded ∧ pp.Crowded
  | _ => True

/-- The points are inserted into the empty quadtree, and the result stores each of them once, where
it belongs. -/
def Represents (width height : Int63) (ps : List Point) : Prop :=
  ∃ qt, InsertsAll ps (empty width height) qt ∧ (∀ p, p ∈ qt.root.points ↔ p ∈ ps) ∧
    qt.root.points.Nodup ∧ qt.root.Placed (.whole width height) ∧ qt.root.Crowded

/-- `insert p (insert r qt)` and `insert r (insert p qt)` end, with the same quadtree. -/
def Commutes (p r : Point) (qt : Quadtree) : Prop :=
  ∃ qt', (∃ m, Inserts r qt m ∧ Inserts p m qt') ∧ ∃ m, Inserts p qt m ∧ Inserts r m qt'

/-- `insert p qt` ends, and inserting `p` once more changes nothing. -/
def Idempotent (p : Point) (qt : Quadtree) : Prop := ∃ qt', Inserts p qt qt' ∧ Inserts p qt' qt'

end Sem3.Quad
