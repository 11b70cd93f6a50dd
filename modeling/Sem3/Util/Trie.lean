import Mathlib.Data.Finset.Card
import Mathlib.Data.Finset.Lattice.Fold
import Mathlib.Data.Finset.Prod
import Mathlib.Logic.Function.Basic

/-!
# Tries

A division cuts each region into parts, and says which part a point belongs to. A trie stores points
by the parts that they belong to: an empty region, a region with one point, or a region that is cut.
`insert` adds a point and cuts regions until the points are apart; as it need not end, it has a bound
on the number of calls.

The trie of a set of points is determined by the set (`Canon.unique`), there is one if and only if
any two points come to be in different parts (`exists_canon_iff`), and `insert` leads from the trie
of a set to the trie of the set with one more point (`Canon.exists_insert_iff`).
-/

/-- A trie with parts in `ι` and points in `P`. -/
inductive Trie (ι P : Type*) where
  | empty
  | leaf (p : P)
  | node (f : ι → Trie ι P)

/-- The part of a region that a point belongs to, and the region that a part is. -/
structure Division (R ι P : Type*) where
  part : R → P → ι
  child : R → ι → R

namespace Division

variable {R ι P : Type*} {D : Division R ι P} {r : R} {p q : P} {n m : ℕ}

/-- The parts that a point belongs to when a region is cut `n` times. -/
def digits (D : Division R ι P) : ℕ → R → P → List ι
  | 0, _, _ => []
  | n + 1, r, p => D.part r p :: digits D n (D.child r (D.part r p)) p

/-- Any two points come to be in different parts. -/
def Separated (D : Division R ι P) (r : R) (S : Set P) : Prop :=
  ∀ p ∈ S, ∀ q ∈ S, p ≠ q → ∃ n, D.digits n r p ≠ D.digits n r q

/-- Points that agree in more divisions agree in fewer. -/
theorem digits_of_le (hnm : n ≤ m) (h : D.digits m r p = D.digits m r q) :
    D.digits n r p = D.digits n r q := by
  induction n generalizing m r with
  | zero => rfl
  | succ n ih =>
    obtain ⟨m, rfl⟩ : ∃ k, m = k + 1 := ⟨m - 1, by omega⟩
    obtain ⟨hpart, hrest⟩ := List.cons.inj h
    rw [← hpart] at hrest
    rw [digits, digits, ← hpart, ih (by omega) hrest]

theorem Separated.mono {S T : Set P} (h : D.Separated r T) (hST : S ⊆ T) : D.Separated r S :=
  fun p hp q hq => h p (hST hp) q (hST hq)

/-- There is a bound on the number of cuts that tell the points of a finite set apart. -/
theorem Separated.exists_bound {S : Finset P} (h : D.Separated r S) :
    ∃ n, ∀ p ∈ S, ∀ q ∈ S, p ≠ q → D.digits n r p ≠ D.digits n r q := by
  have hpair : ∀ x : P × P, ∃ n, x.1 ∈ S → x.2 ∈ S → x.1 ≠ x.2 →
      D.digits n r x.1 ≠ D.digits n r x.2 := by
    rintro ⟨p, q⟩
    by_cases hpq : p ∈ S ∧ q ∈ S ∧ p ≠ q
    · obtain ⟨n, hn⟩ := h p hpq.1 q hpq.2.1 hpq.2.2
      exact ⟨n, fun _ _ _ => hn⟩
    · exact ⟨0, fun hp hq hne => absurd ⟨hp, hq, hne⟩ hpq⟩
  choose N hN using hpair
  refine ⟨(S ×ˢ S).sup N, fun p hp q hq hne heq => ?_⟩
  have hle : N (p, q) ≤ (S ×ˢ S).sup N := Finset.le_sup (Finset.mk_mem_product hp hq)
  exact hN (p, q) hp hq hne (digits_of_le hle heq)

variable [DecidableEq ι] {S : Finset P} {t t' : Trie ι P} {f f' : ι → Trie ι P}

/-- The children of a region that is cut, with one point. -/
def single (D : Division R ι P) (r : R) (q : P) (i : ι) : Trie ι P :=
  if D.part r q = i then .leaf q else .empty

/-- The trie of a set of points: a region is cut if there is more than one point in it. -/
inductive Canon (D : Division R ι P) : R → Finset P → Trie ι P → Prop
  | empty {r : R} {S : Finset P} (hS : S = ∅) : Canon D r S .empty
  | leaf {r : R} {S : Finset P} {p : P} (hS : S = {p}) : Canon D r S (.leaf p)
  | node {r : R} {S : Finset P} {f : ι → Trie ι P} (hS : 1 < S.card)
      (h : ∀ i, Canon D (D.child r i) (S.filter fun p => D.part r p = i) (f i)) :
      Canon D r S (.node f)

/-- The children of a region that is cut are the tries of the parts. -/
def Branches (D : Division R ι P) (r : R) (S : Finset P) (f : ι → Trie ι P) : Prop :=
  ∀ i, Canon D (D.child r i) (S.filter fun p => D.part r p = i) (f i)

/-! ## One trie for each set -/

theorem Canon.unique (h : Canon D r S t) (h' : Canon D r S t') : t = t' := by
  induction h generalizing t' with
  | empty hS =>
    subst hS
    cases h' with
    | empty => rfl
    | leaf hS => simp at hS
    | node hS => simp at hS
  | leaf hS =>
    subst hS
    cases h' with
    | empty hS => simp at hS
    | leaf hS => rw [Finset.singleton_inj.1 hS]
    | node hS => simp at hS
  | node hcard h ih =>
    cases h' with
    | empty hS => simp [hS] at hcard
    | leaf hS => simp [hS] at hcard
    | node _ h' => rw [funext fun i => ih i (h' i)]

theorem exists_canon_of_card_le (hS : S.card ≤ 1) : ∃ t, Canon D r S t := by
  rcases Nat.le_one_iff_eq_zero_or_eq_one.1 hS with h0 | h1
  · exact ⟨_, .empty (Finset.card_eq_zero.1 h0)⟩
  · obtain ⟨p, hp⟩ := Finset.card_eq_one.1 h1
    exact ⟨_, .leaf hp⟩

/-- A set has one if the divisions tell its points apart. -/
theorem exists_canon (n : ℕ) (h : ∀ p ∈ S, ∀ q ∈ S, p ≠ q → D.digits n r p ≠ D.digits n r q) :
    ∃ t, Canon D r S t := by
  induction n generalizing r S with
  | zero =>
    refine exists_canon_of_card_le (Finset.card_le_one.2 fun p hp q hq => ?_)
    by_contra hne
    exact h p hp q hq hne rfl
  | succ n ih =>
    rcases le_or_gt S.card 1 with hcard | hcard
    · exact exists_canon_of_card_le hcard
    · have hchild : ∀ i, ∃ t, Canon D (D.child r i) (S.filter fun p => D.part r p = i) t := by
        intro i
        refine ih fun p hp q hq hne heq => ?_
        obtain ⟨hp, hpi⟩ := Finset.mem_filter.1 hp
        obtain ⟨hq, hqi⟩ := Finset.mem_filter.1 hq
        apply h p hp q hq hne
        rw [digits, digits, hpi, hqi, heq]
      choose f hf using hchild
      exact ⟨.node f, .node hcard hf⟩

theorem Canon.separated (h : Canon D r S t) : D.Separated r S := by
  induction h with
  | empty hS =>
    subst hS
    exact fun p hp => absurd hp (by simp)
  | leaf hS =>
    subst hS
    intro p hp q hq hne
    simp only [Finset.coe_singleton, Set.mem_singleton_iff] at hp hq
    exact absurd (hp.trans hq.symm) hne
  | @node r S f hcard h ih =>
    intro p hp q hq hne
    by_cases hpart : D.part r p = D.part r q
    · have hmem : ∀ x ∈ S, D.part r x = D.part r q →
          x ∈ S.filter fun x => D.part r x = D.part r q :=
        fun x hx hxq => Finset.mem_filter.2 ⟨hx, hxq⟩
      obtain ⟨n, hn⟩ := ih (D.part r q) p (hmem p hp hpart) q (hmem q hq rfl) hne
      refine ⟨n + 1, ?_⟩
      rw [digits, digits, hpart]
      exact fun heq => hn (List.cons.inj heq).2
    · exact ⟨1, fun heq => hpart (List.cons.inj heq).1⟩

theorem exists_canon_iff : (∃ t, Canon D r S t) ↔ D.Separated r S := by
  constructor
  · rintro ⟨t, h⟩
    exact h.separated
  · intro h
    obtain ⟨n, hn⟩ := h.exists_bound
    exact exists_canon n hn

/-! ## Insertion -/

theorem branches_single (r : R) (q : P) : D.Branches r {q} (D.single r q) := by
  intro i
  unfold single
  split_ifs with hi
  · exact .leaf (by simp [Finset.filter_singleton, hi])
  · exact .empty (by simp [Finset.filter_singleton, hi])

variable [DecidableEq P]

/-- Add a point with at most `n` calls. -/
def insert (D : Division R ι P) (p : P) : ℕ → R → Trie ι P → Option (Trie ι P)
  | 0, _, _ => none
  | _ + 1, _, .empty => some (.leaf p)
  | n + 1, r, .leaf q => if q = p then some (.leaf q) else insert D p n r (.node (D.single r q))
  | n + 1, r, .node f =>
    (insert D p n (D.child r (D.part r p)) (f (D.part r p))).map fun t =>
      .node (Function.update f (D.part r p) t)

theorem filter_part_insert (r : R) (p : P) (S : Finset P) :
    (Insert.insert p S).filter (fun x => D.part r x = D.part r p) =
      Insert.insert p (S.filter fun x => D.part r x = D.part r p) := by
  rw [Finset.filter_insert, if_pos rfl]

/-- Adding a point to the part that it belongs to leaves the other parts as they are. -/
theorem Branches.update (h : D.Branches r S f)
    (ht : Canon D (D.child r (D.part r p))
      (Insert.insert p (S.filter fun x => D.part r x = D.part r p)) t) :
    D.Branches r (Insert.insert p S) (Function.update f (D.part r p) t) := by
  intro i
  by_cases hi : i = D.part r p
  · subst hi
    rw [Function.update_self, filter_part_insert]
    exact ht
  · rw [Function.update_of_ne hi, Finset.filter_insert, if_neg (Ne.symm hi)]
    exact h i

/-- What `insert` gives for the trie of a set, and for the children of a region that is cut. -/
theorem canon_and_branches_insert (p : P) (n : ℕ) :
    (∀ r S t t', Canon D r S t → D.insert p n r t = some t' →
      Canon D r (Insert.insert p S) t') ∧
    ∀ r S f t', D.Branches r S f → D.insert p n r (.node f) = some t' →
      ∃ f', t' = .node f' ∧ D.Branches r (Insert.insert p S) f' := by
  induction n with
  | zero => exact ⟨fun _ _ _ _ _ hi => (by cases hi), fun _ _ _ _ _ hi => (by cases hi)⟩
  | succ n ih =>
    have hbranches : ∀ r S f t', D.Branches r S f → D.insert p (n + 1) r (.node f) = some t' →
        ∃ f', t' = .node f' ∧ D.Branches r (Insert.insert p S) f' := by
      intro r S f t' hf hi
      obtain ⟨t, ht, rfl⟩ := Option.map_eq_some_iff.1 hi
      exact ⟨_, rfl, hf.update (ih.1 _ _ _ _ (hf _) ht)⟩
    refine ⟨fun r S t t' h hi => ?_, hbranches⟩
    cases h with
    | empty hS =>
      obtain rfl := Option.some.inj hi
      exact .leaf (by simp [hS])
    | @leaf _ _ q hS =>
      subst hS
      rw [insert] at hi
      split_ifs at hi with hqp
      · obtain rfl := Option.some.inj hi
        exact .leaf (by simp [hqp])
      · obtain ⟨f', rfl, hf'⟩ := ih.2 _ _ _ _ (branches_single r q) hi
        exact .node (by rw [Finset.card_pair (Ne.symm hqp)]; omega) hf'
    | node hcard hf =>
      obtain ⟨f', rfl, hf'⟩ := hbranches _ _ _ _ hf hi
      exact .node (hcard.trans_le (Finset.card_le_card (Finset.subset_insert p S))) hf'

/-- If the trie of the part that `p` belongs to can be reached, so can the one of the region. -/
theorem Branches.insert_node (h : D.Branches r S f) (h' : D.Branches r (Insert.insert p S) f')
    (hi : D.insert p n (D.child r (D.part r p)) (f (D.part r p)) = some (f' (D.part r p))) :
    D.insert p (n + 1) r (.node f) = some (.node f') := by
  have hupdate : Function.update f (D.part r p) (f' (D.part r p)) = f' := by
    funext i
    by_cases hip : i = D.part r p
    · rw [hip, Function.update_self]
    · have hi' := h' i
      rw [Finset.filter_insert, if_neg (Ne.symm hip)] at hi'
      rw [Function.update_of_ne hip]
      exact (h i).unique hi'
  rw [insert, hi, Option.map_some, hupdate]

/-- Inserting a point gives the trie of the set with the point. -/
theorem Canon.exists_insert {T : Finset P} (h' : Canon D r T t') (hT : T = Insert.insert p S)
    (h : Canon D r S t) : ∃ n, D.insert p n r t = some t' := by
  induction h' generalizing S t with
  | empty hS => simp [hT] at hS
  | @leaf r T x hS =>
    obtain rfl : p = x := by
      have hp : p ∈ ({x} : Finset P) := by simp [← hS, hT]
      exact Finset.mem_singleton.1 hp
    cases h with
    | empty => exact ⟨1, rfl⟩
    | @leaf _ _ q hq =>
      obtain rfl : q = p := by
        have hqp : q ∈ ({p} : Finset P) := by simp [← hS, hT, hq]
        exact Finset.mem_singleton.1 hqp
      exact ⟨1, if_pos rfl⟩
    | node hcard =>
      have hle := Finset.card_le_card (Finset.subset_insert p S)
      rw [← hT, hS, Finset.card_singleton] at hle
      omega
  | @node r T f' hcard h' ih =>
    subst hT
    cases h with
    | empty hS => simp [hS] at hcard
    | @leaf _ _ q hS =>
      subst hS
      have hqp : q ≠ p := by
        rintro rfl
        simp at hcard
      obtain ⟨n, hn⟩ := ih (D.part r p) (filter_part_insert r p {q}) (branches_single r q _)
      refine ⟨n + 2, ?_⟩
      rw [insert, if_neg hqp]
      exact (branches_single r q).insert_node h' hn
    | node _ hf =>
      obtain ⟨n, hn⟩ := ih (D.part r p) (filter_part_insert r p S) (hf _)
      exact ⟨n + 1, Branches.insert_node hf h' hn⟩

/-- From the trie of a set, `insert` leads to the trie of the set with one more point. -/
theorem Canon.exists_insert_iff (h : Canon D r S t) :
    (∃ n, D.insert p n r t = some t') ↔ Canon D r (Insert.insert p S) t' :=
  ⟨fun ⟨n, hn⟩ => (canon_and_branches_insert p n).1 _ _ _ _ h hn, fun h' => h'.exists_insert rfl h⟩

end Division
