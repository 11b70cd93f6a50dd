import Sem3.Quadtree.Proofs.InsertProofs
import Mathlib.Data.Finset.Insert

/-!
# Proofs: the quadtree of a set of points

A quadtree is determined by its points, and `insert` leads from the quadtree of a set to the one of
the set with one more point (`IsQuadtree.inserts_iff`). It stores the points of the set once, where
they belong.
-/

namespace Sem3.Quad

open QuadtreeNode

variable {w h : Int63} {p q : Point} {r : Region} {n : ℕ} {S : Finset Point} {qt qt' : Quadtree}
  {qtn : QuadtreeNode} {ps : List Point}

/-! ## One quadtree for each trie -/

/-- The node of the quadtree for a trie; `toTrie` goes the other way. -/
def QuadtreeNode.ofTrie : Trie Quadrant Point → QuadtreeNode
  | .empty => noPoint
  | .leaf p => point p
  | .node f => qnode (ofTrie (f .nn)) (ofTrie (f .np)) (ofTrie (f .pn)) (ofTrie (f .pp))

theorem toTrie_ofTrie (t : Trie Quadrant Point) : (ofTrie t).toTrie = t := by
  induction t with
  | empty => rfl
  | leaf p => rfl
  | node f ih =>
    rw [ofTrie, toTrie]
    congr 1
    funext i
    cases i <;> exact ih _

theorem ofTrie_toTrie (qtn : QuadtreeNode) : ofTrie qtn.toTrie = qtn := by
  induction qtn with
  | noPoint => rfl
  | point p => rfl
  | qnode nn np pn pp ihnn ihnp ihpn ihpp => rw [toTrie, ofTrie, ihnn, ihnp, ihpn, ihpp]

theorem toTrie_injective : Function.Injective toTrie :=
  Function.LeftInverse.injective ofTrie_toTrie

/-- The quadtree of a set of points. -/
structure IsQuadtree (w h : Int63) (S : Finset Point) (qt : Quadtree) : Prop where
  width : qt.width = w
  height : qt.height = h
  canon : division.Canon (.whole w h) S qt.root.toTrie

theorem isQuadtree_empty (w h : Int63) : IsQuadtree w h ∅ (empty w h) := ⟨rfl, rfl, .empty rfl⟩

theorem IsQuadtree.unique (hqt : IsQuadtree w h S qt) (hqt' : IsQuadtree w h S qt') : qt = qt' := by
  obtain ⟨w, h, root⟩ := qt
  obtain ⟨w', h', root'⟩ := qt'
  obtain ⟨rfl, rfl, hcanon⟩ := hqt
  obtain ⟨rfl, rfl, hcanon'⟩ := hqt'
  obtain rfl : root = root' := toTrie_injective (hcanon.unique hcanon')
  rfl

/-- A set of points has a quadtree if and only if the divisions tell its points apart. -/
theorem exists_isQuadtree_iff : (∃ qt, IsQuadtree w h S qt) ↔ division.Separated (.whole w h) S := by
  rw [← Division.exists_canon_iff]
  constructor
  · rintro ⟨qt, hqt⟩
    exact ⟨_, hqt.canon⟩
  · rintro ⟨t, ht⟩
    refine ⟨⟨w, h, ofTrie t⟩, rfl, rfl, ?_⟩
    rw [toTrie_ofTrie]
    exact ht

/-- Inserting a point is inserting it into the trie. -/
theorem inserts_iff_trie :
    Inserts p qt qt' ↔ (qt'.width = qt.width ∧ qt'.height = qt.height) ∧
      ∃ n, division.insert p n (.whole qt.width qt.height) qt.root.toTrie = some qt'.root.toTrie := by
  have htrav : ∀ n, division.insert p n (.whole qt.width qt.height) qt.root.toTrie =
      (trav n (0, 0) (qt.width, qt.height) qt.root p).map toTrie := by
    intro n
    exact (trav_toTrie n (.whole qt.width qt.height) qt.root p).symm
  constructor
  · rintro ⟨n, hn⟩
    obtain ⟨root, hroot, rfl⟩ := Option.map_eq_some_iff.1 hn
    exact ⟨⟨rfl, rfl⟩, n, by rw [htrav, hroot, Option.map_some]⟩
  · rintro ⟨⟨hw, hh⟩, n, hn⟩
    rw [htrav] at hn
    obtain ⟨root, hroot, htrie⟩ := Option.map_eq_some_iff.1 hn
    obtain ⟨w', h', root'⟩ := qt'
    obtain rfl := toTrie_injective htrie
    subst hw hh
    exact ⟨n, by rw [insert, hroot, Option.map_some]⟩

/-- Inserting a point gives the quadtree with one more point. -/
theorem IsQuadtree.inserts_iff (hqt : IsQuadtree w h S qt) :
    Inserts p qt qt' ↔ IsQuadtree w h (Insert.insert p S) qt' := by
  rw [inserts_iff_trie, hqt.width, hqt.height, hqt.canon.exists_insert_iff]
  exact ⟨fun ⟨⟨hw, hh⟩, hc⟩ => ⟨hw, hh, hc⟩, fun ⟨hw, hh, hc⟩ => ⟨⟨hw, hh⟩, hc⟩⟩

/-- The divisions tell the points of a quadtree apart. -/
theorem IsQuadtree.separated (hqt : IsQuadtree w h S qt) : division.Separated (.whole w h) S :=
  hqt.canon.separated

/-- Inserting a list of points leads to the quadtree of the set with these points. -/
theorem IsQuadtree.insertsAll_iff (hqt : IsQuadtree w h S qt) :
    InsertsAll ps qt qt' ↔ IsQuadtree w h (S ∪ ps.toFinset) qt' := by
  induction ps generalizing S qt with
  | nil =>
    rw [List.toFinset_nil, Finset.union_empty]
    constructor
    · rintro rfl
      exact hqt
    · exact hqt.unique
  | cons p ps ih =>
    have hunion : S ∪ (p :: ps).toFinset = Insert.insert p S ∪ ps.toFinset := by
      rw [List.toFinset_cons, Finset.union_insert, Finset.insert_union]
    rw [hunion]
    constructor
    · rintro ⟨m, hm, hall⟩
      exact (ih (hqt.inserts_iff.1 hm)).1 hall
    · intro hqt'
      have hsub : ((Insert.insert p S : Finset Point) : Set Point) ⊆
          (Insert.insert p S ∪ ps.toFinset : Finset Point) := by
        exact_mod_cast Finset.subset_union_left
      obtain ⟨m, hm⟩ := exists_isQuadtree_iff.2 (hqt'.separated.mono hsub)
      exact ⟨m, hqt.inserts_iff.2 hm, (ih hm).2 hqt'⟩

/-- Inserting points in turn gives the quadtree of their set. -/
theorem insertsAll_empty_iff :
    InsertsAll ps (empty w h) qt ↔ IsQuadtree w h ps.toFinset qt := by
  rw [(isQuadtree_empty w h).insertsAll_iff, Finset.empty_union]

theorem separated_toFinset :
    division.Separated (.whole w h) (ps.toFinset : Finset Point) ↔ Separated w h ps := by
  rw [List.coe_toFinset, Separated]

/-! ## The points of a quadtree -/

/-- The points of a node are those of its set. -/
theorem mem_points_iff (hqtn : division.Canon r S qtn.toTrie) : p ∈ qtn.points ↔ p ∈ S := by
  induction qtn generalizing r S with
  | noPoint =>
    cases hqtn with
    | empty hS => simp [points, hS]
  | point q =>
    cases hqtn with
    | leaf hS => simp [points, hS]
  | qnode nn np pn pp ihnn ihnp ihpn ihpp =>
    cases hqtn with
    | node hcard hf =>
      have hpart : p ∈ S ↔ p ∈ S ∧ (division.part r p = .nn ∨ division.part r p = .np ∨
          division.part r p = .pn ∨ division.part r p = .pp) := by
        cases division.part r p <;> simp
      rw [points, List.mem_append, List.mem_append, List.mem_append, ihnn (hf .nn), ihnp (hf .np),
        ihpn (hf .pn), ihpp (hf .pp)]
      simp only [Finset.mem_filter]
      grind

theorem nodup_points (hqtn : division.Canon r S qtn.toTrie) : qtn.points.Nodup := by
  induction qtn generalizing r S with
  | noPoint => exact List.nodup_nil
  | point q => exact List.nodup_singleton q
  | qnode nn np pn pp ihnn ihnp ihpn ihpp =>
    cases hqtn with
    | node hcard hf =>
      have hnn := fun x => mem_points_iff (p := x) (hf .nn)
      have hnp := fun x => mem_points_iff (p := x) (hf .np)
      have hpn := fun x => mem_points_iff (p := x) (hf .pn)
      have hpp := fun x => mem_points_iff (p := x) (hf .pp)
      simp only [Finset.mem_filter] at hnn hnp hpn hpp
      -- a point of one quadrant is in no other
      simp only [points, List.nodup_append', List.Disjoint, hnn, hnp, hpn, hpp, ihnn (hf .nn),
        ihnp (hf .np), ihpn (hf .pn), ihpp (hf .pp)]
      grind

theorem length_points (hqtn : division.Canon r S qtn.toTrie) : qtn.points.length = S.card := by
  have hpoints : qtn.points.toFinset = S := by
    ext p
    rw [List.mem_toFinset, mem_points_iff hqtn]
  rw [← hpoints, List.toFinset_card_of_nodup (nodup_points hqtn)]

/-- A node that is divided has more than one point. -/
theorem crowded_of_canon (hqtn : division.Canon r S qtn.toTrie) : qtn.Crowded := by
  induction qtn generalizing r S with
  | noPoint => trivial
  | point q => trivial
  | qnode nn np pn pp ihnn ihnp ihpn ihpp =>
    have hlen := length_points hqtn
    cases hqtn with
    | node hcard hf =>
      exact ⟨by omega, ihnn (hf .nn), ihnp (hf .np), ihpn (hf .pn), ihpp (hf .pp)⟩

theorem between_iff {b t p : Point} :
    between b t p ↔ ((b.1 ≤ p.1 ∧ p.1 < t.1) ∧ b.2 ≤ p.2) ∧ p.2 < t.2 := by
  simp only [between, Bool.and_eq_true, decide_eq_true_eq]

/-- A point lies in the quadrant that is chosen for it: the last one has what the others leave. -/
theorem between_child (hp : between r.b r.t p) :
    between (r.child (r.quadrant p)).b (r.child (r.quadrant p)).t p := by
  unfold Region.quadrant
  split_ifs with hnn hnp hpn
  · exact hnn
  · exact hnp
  · exact hpn
  · simp only [between_iff, Region.child, not_and_or, not_le, not_lt] at hp hnn hnp hpn ⊢
    obtain ⟨⟨⟨hbx, htx⟩, hby⟩, hty⟩ := hp
    have hx : half r.b.1 r.t.1 ≤ p.1 := by
      by_contra hlt
      grind
    have hy : half r.b.2 r.t.2 ≤ p.2 := by
      by_contra hlt
      grind
    exact ⟨⟨⟨hx, htx⟩, hy⟩, hty⟩

/-- Every point is stored in the part of the plane that it lies in. -/
theorem placed_of_canon (hqtn : division.Canon r S qtn.toTrie) (hS : ∀ p ∈ S, between r.b r.t p) :
    qtn.Placed r := by
  have hmem : ∀ p ∈ qtn.points, between r.b r.t p := fun p hp => hS p ((mem_points_iff hqtn).1 hp)
  induction qtn generalizing r S with
  | noPoint => exact ⟨hmem, trivial⟩
  | point q => exact ⟨hmem, trivial⟩
  | qnode nn np pn pp ihnn ihnp ihpn ihpp =>
    cases hqtn with
    | node hcard hf =>
      have hchild : ∀ i, ∀ p ∈ S.filter (fun p => division.part r p = i),
          between (r.child i).b (r.child i).t p := by
        intro i p hp
        obtain ⟨hpS, rfl⟩ := Finset.mem_filter.1 hp
        exact between_child (hS p hpS)
      have hpoints : ∀ i (c : QuadtreeNode),
          division.Canon (r.child i) (S.filter fun p => division.part r p = i) c.toTrie →
            ∀ p ∈ c.points, between (r.child i).b (r.child i).t p :=
        fun i c hc p hp => hchild i p ((mem_points_iff hc).1 hp)
      exact ⟨hmem, ihnn (hf .nn) (hchild .nn) (hpoints .nn nn (hf .nn)),
        ihnp (hf .np) (hchild .np) (hpoints .np np (hf .np)),
        ihpn (hf .pn) (hchild .pn) (hpoints .pn pn (hf .pn)),
        ihpp (hf .pp) (hchild .pp) (hpoints .pp pp (hf .pp))⟩

end Sem3.Quad
