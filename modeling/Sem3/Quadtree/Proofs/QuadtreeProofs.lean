import Sem3.Quadtree.Proofs.CanonProofs

/-!
# Proofs: insertion into quadtrees

`insert` ends if the points are separated, which they are unless the sum of two coordinates in `trav`
overflows. The quadtree then represents the set of the points, in whichever order they are inserted.
-/

namespace Sem3.Quad

variable {w h : Int63} {p q : Point} {r : Region} {n : ℕ} {S : Finset Point} {qt qt' : Quadtree}
  {ps : List Point} {a b : Int63}

/-! ## The middle -/

/-- The middle of an interval, if the sum does not overflow. -/
theorem val_half_add (ha : 0 ≤ a.val) (hb : 0 ≤ b.val) (h : a.val + b.val < 2 ^ 62) :
    (half a b).val = (a.val + b.val) / 2 := by
  have hadd : (a + b).val = a.val + b.val := Int63.val_add (by omega) h
  rw [half, Int63.val_half, hadd, if_pos (by omega)]

/-- The coordinates of the corners are not negative, and so small that sums do not overflow. -/
structure Small (r : Region) : Prop where
  left : 0 ≤ r.b.1.val ∧ r.b.1.val < 2 ^ 61
  bottom : 0 ≤ r.b.2.val ∧ r.b.2.val < 2 ^ 61
  width : r.b.1.val ≤ r.t.1.val
  height : r.b.2.val ≤ r.t.2.val
  right : r.t.1.val ≤ 2 ^ 61
  top : r.t.2.val ≤ 2 ^ 61

theorem Small.half_fst (hr : Small r) :
    (half r.b.1 r.t.1).val = (r.b.1.val + r.t.1.val) / 2 := by
  obtain ⟨hl, -, hw, -, hr, -⟩ := hr
  exact val_half_add hl.1 (by omega) (by omega)

theorem Small.half_snd (hr : Small r) :
    (half r.b.2 r.t.2).val = (r.b.2.val + r.t.2.val) / 2 := by
  obtain ⟨-, hb, -, hh, -, ht⟩ := hr
  exact val_half_add hb.1 (by omega) (by omega)

theorem Small.child (hr : Small r) (i : Quadrant) : Small (r.child i) := by
  have hx := hr.half_fst
  have hy := hr.half_snd
  obtain ⟨hl, hb, hw, hh, hr, ht⟩ := hr
  cases i <;> constructor <;> simp only [Region.child] <;> omega

/-- The sum of the lengths of the sides. -/
def Region.size (r : Region) : ℤ := (r.t.1.val - r.b.1.val) + (r.t.2.val - r.b.2.val)

theorem Small.size_nonneg (hr : Small r) : 0 ≤ r.size := by
  have hw := hr.width
  have hh := hr.height
  unfold Region.size
  omega

theorem between_val : between r.b r.t p ↔
    ((r.b.1.val ≤ p.1.val ∧ p.1.val < r.t.1.val) ∧ r.b.2.val ≤ p.2.val) ∧ p.2.val < r.t.2.val :=
  between_iff

/-- Two points that lie in a quadrant and are not the same leave no quadrant as large as the region. -/
theorem Small.size_child_lt (hr : Small r) {i : Quadrant} (hp : between (r.child i).b (r.child i).t p)
    (hq : between (r.child i).b (r.child i).t q) (hne : p ≠ q) : (r.child i).size < r.size := by
  have hx := hr.half_fst
  have hy := hr.half_snd
  obtain ⟨hl, hb, hw, hh, hr, ht⟩ := hr
  have hdiff : p.1.val ≠ q.1.val ∨ p.2.val ≠ q.2.val := by
    by_contra! heq
    exact hne (Prod.ext (Int63.ext heq.1) (Int63.ext heq.2))
  rw [between_val] at hp hq
  cases i <;> simp only [Region.child, Region.size] at hp hq ⊢ <;> omega

/-- The divisions of a small region tell two points apart. -/
theorem Small.separated_pair (hr : Small r) (hp : between r.b r.t p) (hq : between r.b r.t q)
    (hne : p ≠ q) : ∃ n, division.digits n r p ≠ division.digits n r q := by
  induction hn : r.size.toNat using Nat.strong_induction_on generalizing r with
  | _ k ih =>
    by_cases hpart : r.quadrant p = r.quadrant q
    · have hp' := between_child hp
      have hq' := between_child hq
      rw [← hpart] at hq'
      have hlt := hr.size_child_lt hp' hq' hne
      have hsize := (hr.child (r.quadrant p)).size_nonneg
      obtain ⟨n, hn'⟩ := ih _ (by omega) (hr.child _) hp' hq' rfl
      refine ⟨n + 1, fun heq => hn' ?_⟩
      have hrest := (List.cons.inj heq).2
      change division.digits n (r.child (r.quadrant p)) p =
        division.digits n (r.child (r.quadrant q)) q at hrest
      rw [← hpart] at hrest
      exact hrest
    · exact ⟨1, fun heq => hpart (List.cons.inj heq).1⟩

theorem InBounds.between (hp : InBounds w h p) :
    between (Region.whole w h).b (Region.whole w h).t p :=
  between_iff.2 ⟨⟨hp.1, hp.2.1⟩, hp.2.2⟩

/-- Up to a width and a height of 2^61 all points are told apart. -/
theorem separated_of_le (hw : w.val ≤ 2 ^ 61) (hh : h.val ≤ 2 ^ 61)
    (hps : ∀ p ∈ ps, InBounds w h p) : Separated w h ps := by
  intro p hp q hq hne
  have hpb := (hps p hp).between
  have hwp : 0 ≤ p.1.val ∧ p.1.val < w.val := (hps p hp).1
  have hhp : 0 ≤ p.2.val ∧ p.2.val < h.val := (hps p hp).2
  have hzero : (0 : ℤ) < 2 ^ 61 := by norm_num
  have hsmall : Small (Region.whole w h) :=
    ⟨⟨le_rfl, hzero⟩, ⟨le_rfl, hzero⟩, hwp.1.trans hwp.2.le, hhp.1.trans hhp.2.le, hw, hh⟩
  exact hsmall.separated_pair hpb (hps q hq).between hne

/-! ## Representation -/

theorem IsQuadtree.represents (hqt : IsQuadtree w h ps.toFinset qt)
    (hps : ∀ p ∈ ps, InBounds w h p) : Represents w h ps := by
  refine ⟨qt, insertsAll_empty_iff.2 hqt, fun p => ?_, nodup_points hqt.canon,
    placed_of_canon hqt.canon fun p hp => ?_, crowded_of_canon hqt.canon⟩
  · rw [mem_points_iff hqt.canon, List.mem_toFinset]
  · exact (hps p (List.mem_toFinset.1 hp)).between

/-- Points within the bounds of a quadtree are represented by it if and only if they are separated,
which they are if the sides are no longer than `2^61`. -/
theorem represents_iff (w h : Int63) (ps : List Point) (hps : ∀ p ∈ ps, InBounds w h p) :
    (Represents w h ps ↔ Separated w h ps) ∧
      (w.val ≤ 2 ^ 61 → h.val ≤ 2 ^ 61 → Separated w h ps) := by
  refine ⟨⟨?_, fun hsep => ?_⟩, fun hw hh => separated_of_le hw hh hps⟩
  · rintro ⟨qt, hqt, -⟩
    exact separated_toFinset.1 (insertsAll_empty_iff.1 hqt).separated
  · obtain ⟨qt, hqt⟩ := exists_isQuadtree_iff.2 (separated_toFinset.2 hsep)
    exact hqt.represents hps

/-- Two points in a plane of 16 by 16. -/
theorem represents_iff_two_points :
    (Represents 16 16 [(6, 6), (2, 2)] ↔ Separated 16 16 [(6, 6), (2, 2)]) ∧
      ((16 : Int63).val ≤ 2 ^ 61 → (16 : Int63).val ≤ 2 ^ 61 →
        Separated 16 16 [(6, 6), (2, 2)]) := by
  refine represents_iff 16 16 [(6, 6), (2, 2)] ?_
  unfold InBounds
  decide

/-! ## Overflow -/

/-- `max_int` -/
def maxInt : Int63 := Int63.ofInt (2 ^ 62 - 1)

theorem val_maxInt : maxInt.val = 2 ^ 62 - 1 := Int63.val_ofInt (by norm_num) (by norm_num)

/-- The middle between a corner and `max_int` is in the lower half of the numbers: it is negative if
the sum overflows. -/
theorem val_half_maxInt_le (a : Int63) (ha : a.val ≤ 2 ^ 61 - 1) :
    (half a maxInt).val ≤ 2 ^ 61 - 1 := by
  have hmax := val_maxInt
  have hlower := a.lower
  rw [half, Int63.val_half]
  rcases le_or_gt a.val 0 with hneg | hpos
  · rw [Int63.val_add (by omega) (by omega)]
    split_ifs <;> omega
  · rw [Int63.val_add_of_overflow (by omega)]
    split_ifs <;> omega

/-- Points in the upper half of a row of length `max_int` stay in the same quadrants forever. -/
theorem digits_maxInt (hp : 2 ^ 61 - 1 ≤ p.1.val) (hp0 : p.2 = 0) (hq : 2 ^ 61 - 1 ≤ q.1.val)
    (hq0 : q.2 = 0) (a : Int63) (ha : a.val ≤ 2 ^ 61 - 1) (n : ℕ) :
    division.digits n ⟨(a, 0), (maxInt, 1)⟩ p = division.digits n ⟨(a, 0), (maxInt, 1)⟩ q := by
  have hquadrant : ∀ (a : Int63) (x : Point), a.val ≤ 2 ^ 61 - 1 → 2 ^ 61 - 1 ≤ x.1.val → x.2 = 0 →
      division.part ⟨(a, 0), (maxInt, 1)⟩ x = .pp := by
    intro a x ha hx hx0
    have hmid := val_half_maxInt_le a ha
    have hx' : ¬ x.1 < half a maxInt := by
      rw [Int63.lt_iff]
      omega
    have hzero : half (0 : Int63) 1 = 0 := by decide
    show Region.quadrant _ x = _
    rw [Region.quadrant, if_neg, if_neg, if_neg] <;>
      simp [between_iff, Region.child, hx', hx0, hzero]
  induction n generalizing a with
  | zero => rfl
  | succ n ih =>
    rw [Division.digits, Division.digits, hquadrant a p ha hp hp0, hquadrant a q ha hq hq0]
    have hchild : division.child ⟨(a, 0), (maxInt, 1)⟩ .pp = ⟨(half a maxInt, 0), (maxInt, 1)⟩ := rfl
    rw [hchild, ih _ (val_half_maxInt_le a ha)]

/-- The last two points of a row of length `max_int`. -/
def farPoints : List Point := [(maxInt - 1, 0), (maxInt - 2, 0)]

theorem inBounds_farPoints : ∀ p ∈ farPoints, InBounds maxInt 1 p := by
  unfold InBounds farPoints
  decide

/-- The middle of the plane overflows, so the divisions do not tell them apart. -/
theorem not_separated_farPoints : ¬ Separated maxInt 1 farPoints := by
  intro hsep
  obtain ⟨n, hn⟩ := hsep (maxInt - 1, 0) (by simp [farPoints]) (maxInt - 2, 0) (by simp [farPoints])
    (by decide)
  exact hn (digits_maxInt (by decide) rfl (by decide) rfl 0 (by decide) n)

/-- No quadtree has both of `farPoints`. -/
theorem not_represents_farPoints :
    (∀ p ∈ farPoints, InBounds maxInt 1 p) ∧ ¬ Represents maxInt 1 farPoints := by
  refine ⟨inBounds_farPoints, ?_⟩
  rintro ⟨qt, hqt, -⟩
  exact not_separated_farPoints (separated_toFinset.1 (insertsAll_empty_iff.1 hqt).separated)

/-! ## Canonicity -/

/-- Points are told apart if there is a quadtree for all of them. -/
theorem separated_cons_iff : Separated w h (p :: ps) ↔
    ∃ qt, IsQuadtree w h (Insert.insert p ps.toFinset) qt := by
  rw [exists_isQuadtree_iff, ← List.toFinset_cons, separated_toFinset]

/-- Inserting a point twice ends if the point is told apart from the others. -/
theorem IsQuadtree.idempotent_iff (hqt : IsQuadtree w h ps.toFinset qt) (p : Point) :
    Idempotent p qt ↔ Separated w h (p :: ps) := by
  rw [separated_cons_iff]
  constructor
  · rintro ⟨qt', hp, -⟩
    exact ⟨qt', hqt.inserts_iff.1 hp⟩
  · rintro ⟨qt', hqt'⟩
    refine ⟨qt', hqt.inserts_iff.2 hqt', hqt'.inserts_iff.2 ?_⟩
    rw [Finset.insert_idem]
    exact hqt'

/-- Inserting two points gives the quadtree with both. -/
theorem IsQuadtree.inserts_inserts_iff (hqt : IsQuadtree w h S qt) (p r : Point) :
    (∃ m, Inserts r qt m ∧ Inserts p m qt') ↔
      IsQuadtree w h (Insert.insert p (Insert.insert r S)) qt' := by
  constructor
  · rintro ⟨m, hm, hqt'⟩
    exact (hqt.inserts_iff.1 hm).inserts_iff.1 hqt'
  · intro hqt'
    have hsub : ((Insert.insert r S : Finset Point) : Set Point) ⊆
        (Insert.insert p (Insert.insert r S) : Finset Point) := by
      exact_mod_cast Finset.subset_insert p (Insert.insert r S)
    obtain ⟨m, hm⟩ := exists_isQuadtree_iff.2 (hqt'.separated.mono hsub)
    exact ⟨m, hqt.inserts_iff.2 hm, hm.inserts_iff.2 hqt'⟩

/-- Two points may be inserted in either order if they are told apart from the others. -/
theorem IsQuadtree.commutes_iff (hqt : IsQuadtree w h ps.toFinset qt) (p r : Point) :
    Commutes p r qt ↔ Separated w h (p :: r :: ps) := by
  rw [separated_cons_iff, List.toFinset_cons]
  constructor
  · rintro ⟨qt', hpr, -⟩
    exact ⟨qt', (hqt.inserts_inserts_iff p r).1 hpr⟩
  · rintro ⟨qt', hqt'⟩
    refine ⟨qt', (hqt.inserts_inserts_iff p r).2 hqt', (hqt.inserts_inserts_iff r p).2 ?_⟩
    rw [Finset.insert_comm]
    exact hqt'

/-- Two insertions commute, and the first point can be inserted twice, if and only if the points are
separated. In any case the two orders agree as far as they end, and the quadtree depends only on the
set of the points. -/
theorem commutes_and_idempotent_iff (w h : Int63) (ps : List Point) (qt : Quadtree) (p r : Point)
    (hqt : InsertsAll ps (empty w h) qt) (hps : ∀ x ∈ p :: r :: ps, InBounds w h x) :
    ((Commutes p r qt ∧ Idempotent p qt ↔ Separated w h (p :: r :: ps)) ∧
      (w.val ≤ 2 ^ 61 → h.val ≤ 2 ^ 61 → Separated w h (p :: r :: ps))) ∧
    (∀ qt', (∃ m, Inserts r qt m ∧ Inserts p m qt') ↔ ∃ m, Inserts p qt m ∧ Inserts r m qt') ∧
    ∀ ps' qt', (∀ x, x ∈ ps' ↔ x ∈ ps) → (InsertsAll ps' (empty w h) qt' ↔ qt' = qt) := by
  rw [insertsAll_empty_iff] at hqt
  have hmono : Separated w h (p :: r :: ps) → Separated w h (p :: ps) := by
    refine fun hsep => hsep.mono fun x hx => ?_
    rcases List.mem_cons.1 hx with rfl | hx
    · exact List.mem_cons_self
    · exact List.mem_cons_of_mem _ (List.mem_cons_of_mem _ hx)
  refine ⟨⟨⟨fun hci => (hqt.commutes_iff p r).1 hci.1, fun hsep => ?_⟩, ?_⟩, fun qt' => ?_, ?_⟩
  · exact ⟨(hqt.commutes_iff p r).2 hsep, (hqt.idempotent_iff p).2 (hmono hsep)⟩
  · exact fun hw hh => separated_of_le hw hh hps
  · rw [hqt.inserts_inserts_iff, hqt.inserts_inserts_iff, Finset.insert_comm]
  · intro ps' qt' hmem
    have hset : ps'.toFinset = ps.toFinset := by
      ext x
      rw [List.mem_toFinset, List.mem_toFinset, hmem]
    rw [insertsAll_empty_iff, hset]
    constructor
    · exact fun hqt' => hqt'.unique hqt
    · rintro rfl
      exact hqt

theorem insertsAll_singleton (w h : Int63) (p : Point) :
    InsertsAll [p] (empty w h) ⟨w, h, .point p⟩ := ⟨_, ⟨1, rfl⟩, rfl⟩

/-- Points in a plane of 16 by 16. -/
theorem commutes_and_idempotent_iff_two_points :
    ((Commutes (2, 2) (9, 3) ⟨16, 16, .point (6, 6)⟩ ∧
          Idempotent (2, 2) ⟨16, 16, .point (6, 6)⟩ ↔
        Separated 16 16 [(2, 2), (9, 3), (6, 6)]) ∧
      ((16 : Int63).val ≤ 2 ^ 61 → (16 : Int63).val ≤ 2 ^ 61 →
        Separated 16 16 [(2, 2), (9, 3), (6, 6)])) ∧
    (∀ qt', (∃ m, Inserts (9, 3) ⟨16, 16, .point (6, 6)⟩ m ∧ Inserts (2, 2) m qt') ↔
      ∃ m, Inserts (2, 2) ⟨16, 16, .point (6, 6)⟩ m ∧ Inserts (9, 3) m qt') ∧
    ∀ ps' qt', (∀ x, x ∈ ps' ↔ x ∈ [((6 : Int63), (6 : Int63))]) →
      (InsertsAll ps' (empty 16 16) qt' ↔ qt' = ⟨16, 16, .point (6, 6)⟩) := by
  refine commutes_and_idempotent_iff 16 16 [(6, 6)] _ _ _ (insertsAll_singleton _ _ _) ?_
  unfold InBounds
  decide

/-- The second one of the two points cannot be inserted. -/
theorem not_commutes_farPoints :
    InsertsAll [(maxInt - 1, 0)] (empty maxInt 1) ⟨maxInt, 1, .point (maxInt - 1, 0)⟩ ∧
      (∀ p ∈ farPoints, InBounds maxInt 1 p) ∧
      ¬ (Commutes (maxInt - 2, 0) (maxInt - 1, 0) ⟨maxInt, 1, .point (maxInt - 1, 0)⟩ ∧
        Idempotent (maxInt - 2, 0) ⟨maxInt, 1, .point (maxInt - 1, 0)⟩) := by
  refine ⟨insertsAll_singleton _ _ _, inBounds_farPoints, fun ⟨_, hidem⟩ => ?_⟩
  have hqt := insertsAll_empty_iff.1 (insertsAll_singleton maxInt 1 (maxInt - 1, 0))
  have hsep := (hqt.idempotent_iff (maxInt - 2, 0)).1 hidem
  refine not_separated_farPoints (hsep.mono fun x hx => ?_)
  simpa [farPoints, or_comm] using hx

end Sem3.Quad
