import Sem3.Mst.Spec
import Mathlib.Algebra.Order.Group.Int
import Mathlib.Algebra.Order.Ring.Rat
import Mathlib.Tactic.Tauto

/-!
# Proofs: when `mst` gives a minimum spanning tree

`primMst` grows a connected set of edges of the graph. If each edge that it picks is a lightest one
between a node of the tree and another one, the edges remain part of a minimum spanning tree. If it
ends with a minimum spanning tree, then each edge was one: the tree crosses the cut with an edge that
is as light as any other, and `primMst` could pick this edge.
-/

namespace Sem3.Mst

open SpanningTree

variable {V K : Type*} [DecidableEq V] {g g₀ r t : List (Edge V K)} {st st' : State V K}
  {e h : Edge V K}

/-! ## One call -/

/-- The edge starts at the second node of an edge of the tree. -/
theorem connToTree_iff : connToTree t e ↔ ∃ x ∈ t, e.1 = x.2.2 := by
  have hfold : ∀ (l : List Bool) (b : Bool), l.foldl (· || ·) b = true ↔ b = true ∨ true ∈ l := by
    intro l
    induction l with
    | nil => simp
    | cons a l ih =>
      intro b
      rw [List.foldl_cons, ih]
      cases a <;> simp
  rw [connToTree, hfold]
  simp [eq_comm]

theorem mem_remFromGraph {x : V} : h ∈ remFromGraph x g ↔ h ∈ g ∧ h.2.2 ≠ x := by
  simp [remFromGraph]

/-- The first call picks the first edge, and the other ones what `picks` says. -/
theorem primMst_cases (st : State V K) :
    (primMst st = .leave st.t ∧ (st.t = [] → st.u = [] ∨ st.g = []) ∧
      (st.t ≠ [] → st.picks = none)) ∨
    (∃ e rest, st.t = [] ∧ st.g = e :: rest ∧
      primMst st = .again ⟨[e], remFromGraph e.1 rest, remFromList e.2.2 st.u⟩) ∨
    ∃ e, st.t ≠ [] ∧ st.picks = some e ∧
      primMst st = .again ⟨e :: st.t, remFromGraph e.2.2 st.g, remFromList e.2.2 st.u⟩ := by
  obtain ⟨t, g, u⟩ := st
  cases u with
  | nil => exact .inl ⟨rfl, fun _ => .inl rfl, fun _ => rfl⟩
  | cons x u =>
    cases t with
    | nil =>
      cases g with
      | nil => exact .inl ⟨rfl, fun _ => .inr rfl, fun ht => absurd rfl ht⟩
      | cons e rest => exact .inr (.inl ⟨e, rest, rfl, rfl, rfl⟩)
    | cons y t =>
      cases hcs : g.filter (connToTree (y :: t)) with
      | nil =>
        refine .inl ⟨by simp [primMst, hcs], fun ht => absurd ht (by simp), fun _ => ?_⟩
        simp [State.picks, hcs]
      | cons e cs =>
        refine .inr (.inr ⟨e, by simp, ?_, ?_⟩)
        · simp [State.picks, hcs]
        · simp [primMst, hcs]

/-- What is picked starts at the end of a tree edge. -/
theorem picks_mem (hpicks : st.picks = some e) : e ∈ st.g ∧ ∃ x ∈ st.t, e.1 = x.2.2 := by
  unfold State.picks at hpicks
  split_ifs at hpicks
  obtain ⟨cs, hcs⟩ := List.head?_eq_some_iff.1 hpicks
  have he : e ∈ st.g.filter (connToTree st.t) := by simp [hcs]
  rw [List.mem_filter, connToTree_iff] at he
  exact he

/-! ## The end of the calls -/

/-- Every call but the last one leaves fewer edges. -/
theorem length_lt_of_again (hagain : primMst st = .again st') : st'.g.length < st.g.length := by
  obtain ⟨hleave, -⟩ | ⟨e, rest, -, hg, heq⟩ | ⟨e, -, hpicks, heq⟩ := primMst_cases st
  · rw [hleave] at hagain
    cases hagain
  · rw [heq] at hagain
    cases hagain
    have hle := List.length_filter_le (fun x => decide (x.2.2 ≠ e.1)) rest
    simp only [hg, List.length_cons, remFromGraph]
    omega
  · rw [heq] at hagain
    cases hagain
    exact List.length_filter_lt_length_iff_exists.2 ⟨e, (picks_mem hpicks).1, by simp⟩

variable [LinearOrder K]

omit [DecidableEq V] in
theorem length_sgbw (g : List (Edge V K)) : (sgbw g).length = g.length :=
  (Comparator.sort_perm _ g).length_eq

theorem returns_mst (g : List (Edge V K)) : Loop.Returns primMst (start g) (mst g) := by
  obtain ⟨r, hr⟩ : ∃ r, Loop.iterate primMst (g.length + 1) (start g) = some r :=
    Loop.exists_iterate (I := fun _ => True) (fun st => st.g.length) trivial
      (fun _ _ _ hagain => ⟨trivial, length_lt_of_again hagain⟩) (by simp [start, length_sgbw])
  exact ⟨g.length + 1, by rw [mst, hr]; rfl⟩

/-! ## What every call preserves -/

omit [DecidableEq V] in
theorem pairwise_sgbw (g : List (Edge V K)) :
    (sgbw g).Pairwise fun x y => weight x ≤ weight y := by
  have hle : ∀ x y : Edge V K,
      (if x.2.1 < y.2.1 then -1 else if x.2.1 > y.2.1 then 1 else (0 : ℤ)) ≤ 0 ↔
        weight x ≤ weight y := by
    intro x y
    unfold weight
    split_ifs with hlt hgt
    · simpa using hlt.le
    · simpa using hgt
    · simpa using not_lt.1 hgt
  unfold sgbw
  refine (Comparator.sort_pairwise (fun x y => ?_) (fun x y z => ?_) g).imp fun h => (hle _ _).1 h
  · rw [hle, hle]
    exact le_total _ _
  · rw [hle, hle, hle]
    exact le_trans

omit [DecidableEq V] in
theorem mem_sgbw : e ∈ sgbw g ↔ e ∈ g := (Comparator.sort_perm _ g).mem_iff

/-- What is picked is a lightest of the edges that start at the end of a tree edge. -/
theorem picks_le (hpicks : st.picks = some e)
    (hsorted : st.g.Pairwise fun x y => weight x ≤ weight y) (hh : h ∈ st.g)
    (hconn : ∃ x ∈ st.t, h.1 = x.2.2) : weight e ≤ weight h := by
  unfold State.picks at hpicks
  split_ifs at hpicks
  obtain ⟨cs, hcs⟩ := List.head?_eq_some_iff.1 hpicks
  have hmem : h ∈ st.g.filter (connToTree st.t) := List.mem_filter.2 ⟨hh, connToTree_iff.2 hconn⟩
  have hsorted' := hsorted.sublist (List.filter_sublist (p := connToTree st.t))
  rw [hcs] at hmem hsorted'
  rcases List.mem_cons.1 hmem with rfl | hmem
  · exact le_rfl
  · exact (List.pairwise_cons.1 hsorted').1 h hmem

/-- The tree and the remaining edges are edges of the graph, the remaining ones are sorted, and the
tree is connected. -/
structure Grows (g : List (Edge V K)) (st : State V K) : Prop where
  tree : st.t ⊆ g
  rest : st.g ⊆ g
  sorted : st.g.Pairwise fun x y => weight x ≤ weight y
  connected : IsConnected ends st.t.toFinset
  start : st.t = [] → st = start g

theorem grows_start (g : List (Edge V K)) : Grows g (start g) where
  tree := List.nil_subset g
  rest := fun _ he => mem_sgbw.1 he
  sorted := pairwise_sgbw g
  connected := isConnected_empty
  start := fun _ => rfl

/-- The destination of a tree edge is a node of the tree. -/
theorem mem_reached_of_conn (hconn : ∃ x ∈ st.t, e.1 = x.2.2) : e.1 ∈ st.reached := by
  obtain ⟨x, hx, heq⟩ := hconn
  exact ⟨x, List.mem_toFinset.2 hx, .inr heq⟩

theorem Grows.step (hst : Grows g st) (hagain : primMst st = .again st') : Grows g st' := by
  obtain ⟨hleave, -⟩ | ⟨e, rest, ht, hg, heq⟩ | ⟨e, -, hpicks, heq⟩ := primMst_cases st
  · rw [hleave] at hagain
    cases hagain
  · rw [heq] at hagain
    cases hagain
    have hrest := hst.rest
    have hsorted := hst.sorted
    rw [hg] at hrest hsorted
    refine ⟨by simpa using hrest List.mem_cons_self, fun x hx => ?_, ?_, ?_, by simp⟩
    · exact hrest (List.mem_cons_of_mem e (mem_remFromGraph.1 hx).1)
    · exact (List.pairwise_cons.1 hsorted).2.sublist List.filter_sublist
    · rw [List.toFinset_cons, List.toFinset_nil]
      exact isConnected_empty.insert_edge (.inl rfl)
  · rw [heq] at hagain
    cases hagain
    obtain ⟨he, hconn⟩ := picks_mem hpicks
    refine ⟨List.cons_subset.2 ⟨hst.rest he, hst.tree⟩, fun x hx => ?_, ?_, ?_, by simp⟩
    · exact hst.rest (mem_remFromGraph.1 hx).1
    · exact hst.sorted.sublist List.filter_sublist
    · rw [List.toFinset_cons]
      exact hst.connected.insert_edge (.inr (mem_reached_of_conn hconn))

theorem grows_of_visits (hst : Loop.Visits primMst (start g) st) : Grows g st :=
  hst.invariant (grows_start g) fun _ _ => Grows.step

/-- No edge of the tree leaves the nodes that are reached. -/
theorem not_crosses_reached (he : e ∈ st.t) : ¬ Crosses ends st.reached e :=
  not_crosses_nodes (List.mem_toFinset.2 he)

/-- The edge that is picked leaves the reached nodes, and none that does is lighter. -/
theorem Lightest.of_picks (hst : Lightest g st) (hpicks : st.picks = some e) :
    Crosses ends st.reached e ∧ ∀ f ∈ g, Crosses ends st.reached f → weight e ≤ weight f := by
  unfold Lightest at hst
  rwa [hpicks] at hst

/-- If no edge is picked, none leaves the reached nodes. -/
theorem Lightest.of_none (hst : Lightest g st) (hpicks : st.picks = none) :
    ∀ f ∈ g, ¬ Crosses ends st.reached f := by
  unfold Lightest at hst
  rwa [hpicks] at hst

/-! ## Lightest edges lead to a minimum spanning tree -/

variable [AddCommGroup K] [IsOrderedAddMonoid K]

/-- The edges of the tree are those of some minimum spanning tree. -/
theorem promising_of_lightest (hloop : ∀ e ∈ g, e.1 ≠ e.2.2)
    (hlight : ∀ st, Loop.Visits primMst (start g) st → st.t ≠ [] → Lightest g st)
    (hst : Loop.Visits primMst (start g) st) :
    st.t.Nodup ∧ Promising ends weight g.toFinset st.t.toFinset := by
  induction hst with
  | refl => exact ⟨List.nodup_nil, promising_empty⟩
  | @tail a b ha hab ih =>
    obtain ⟨hnodup, hpromising⟩ := ih
    have hgrows := grows_of_visits ha
    obtain ⟨hleave, -⟩ | ⟨e, rest, ht, hg, heq⟩ | ⟨e, ht, hpicks, heq⟩ := primMst_cases a
    · rw [hleave] at hab
      cases hab
    · rw [heq] at hab
      cases hab
      refine ⟨List.nodup_singleton e, ?_⟩
      have he : e ∈ g := hgrows.rest (by rw [hg]; exact List.mem_cons_self)
      -- the lightest edge of all is one between its source and another node
      rw [List.toFinset_cons, List.toFinset_nil]
      refine promising_empty.insert (S := {e.1}) (by simp) (List.mem_toFinset.2 he) ?_ ?_
      · simp [Crosses, ends, (hloop e he).symm]
      · intro f hf _
        have hsorted := hgrows.sorted
        have hf' : f ∈ a.g := by
          rw [hgrows.start ht]
          exact mem_sgbw.2 (List.mem_toFinset.1 hf)
        rw [hg] at hsorted hf'
        rcases List.mem_cons.1 hf' with rfl | hf'
        · exact le_rfl
        · exact (List.pairwise_cons.1 hsorted).1 f hf'
    · rw [heq] at hab
      cases hab
      obtain ⟨hcross, hmin⟩ := (hlight a ha ht).of_picks hpicks
      refine ⟨List.nodup_cons.2 ⟨fun he => not_crosses_reached he hcross, hnodup⟩, ?_⟩
      rw [List.toFinset_cons]
      exact hpromising.insert (fun f hf => not_crosses_nodes hf)
        (List.mem_toFinset.2 (hgrows.rest (picks_mem hpicks).1)) hcross
        fun f hf => hmin f (List.mem_toFinset.1 hf)

/-- If every pick is the lightest edge, the result is a minimum spanning tree. -/
theorem isMst_of_lightest (hloop : ∀ e ∈ g, e.1 ≠ e.2.2) (hg : IsConnected ends g.toFinset)
    (hlight : ∀ st, Loop.Visits primMst (start g) st → st.t ≠ [] → Lightest g st) :
    IsMst g (mst g) := by
  obtain ⟨a, ha, hleave⟩ := (returns_mst g).exists_visits
  obtain ⟨hnodup, hpromising⟩ := promising_of_lightest hloop hlight ha
  have hgrows := grows_of_visits ha
  obtain ⟨heq, hnil, hpicks⟩ | ⟨e, rest, ht, hg, heq⟩ | ⟨e, ht, hpicks, heq⟩ := primMst_cases a
  · rw [heq] at hleave
    rw [← Loop.Pass.leave.inj hleave]
    refine ⟨hnodup, hpromising.isMinimum (fun e he => ?_) ?_⟩
    · exact List.mem_toFinset.2 (hgrows.tree (List.mem_toFinset.1 he))
    · intro x hx y hy
      by_cases ht : a.t = []
      · -- the first call ends: there are no edges
        have hempty : sgbw g = [] := by
          have hstart := hnil ht
          rw [hgrows.start ht] at hstart
          simpa [start] using hstart
        obtain ⟨f, hf, -⟩ := hx
        have hf' := mem_sgbw.2 (List.mem_toFinset.1 hf)
        rw [hempty] at hf'
        cases hf'
      · obtain ⟨e, he⟩ := List.exists_mem_of_ne_nil _ ht
        have hfirst : (ends e).1 ∈ nodes ends g.toFinset :=
          (mem_nodes (List.mem_toFinset.2 (hgrows.tree he))).1
        have hsub : nodes ends g.toFinset ⊆ a.reached :=
          hg.nodes_subset hfirst (mem_nodes (List.mem_toFinset.2 he)).1 fun f hf =>
            (hlight a ha ht).of_none (hpicks ht) f (List.mem_toFinset.1 hf)
        exact hgrows.connected x (hsub hx) y (hsub hy)
  · rw [heq] at hleave
    cases hleave
  · rw [heq] at hleave
    cases hleave

/-! ## A minimum spanning tree is made of lightest edges -/

omit [AddCommGroup K] [IsOrderedAddMonoid K] in
/-- If the calls end with a tree, an edge that is picked leads to a new node. -/
theorem dest_notMem_reached (hr : Acyclic ends r.toFinset) (hnodup : r.Nodup) (hst : Grows g st)
    (hpicks : st.picks = some e) (hsuffix : e :: st.t <:+ r) : e.2.2 ∉ st.reached := by
  intro hmem
  have hnotin : e ∉ st.t := (List.nodup_cons.1 (hnodup.sublist hsuffix.sublist)).1
  have hsub : st.t.toFinset ⊆ r.toFinset := fun x hx =>
    List.mem_toFinset.2 (hsuffix.subset (List.mem_cons_of_mem e (List.mem_toFinset.1 hx)))
  refine hr.not_both_mem_nodes hst.connected hsub (e := e) ?_ ?_ ⟨?_, hmem⟩
  · exact List.mem_toFinset.2 (hsuffix.subset List.mem_cons_self)
  · rwa [List.mem_toFinset]
  · exact mem_reached_of_conn (picks_mem hpicks).2

omit [AddCommGroup K] [IsOrderedAddMonoid K] in
/-- If the calls end with a tree, its edges that are still missing are among the remaining ones, and
those between a node of the tree so far and another node can be picked already. -/
theorem rest_of_iterate (hr : Acyclic ends r.toFinset) (hnodup : r.Nodup) {n : ℕ} (hst : Grows g st)
    (ht : st.t ≠ []) (hn : Loop.iterate primMst n st = some r) :
    st.t <:+ r ∧ ∀ h ∈ r, h ∉ st.t →
      h ∈ st.g ∧ (Crosses ends st.reached h → ∃ x ∈ st.t, h.1 = x.2.2) := by
  induction n generalizing st with
  | zero => cases hn
  | succ n ih =>
    obtain ⟨heq, -⟩ | ⟨e, rest, hnil, -⟩ | ⟨e, -, hpicks, heq⟩ := primMst_cases st
    · rw [Loop.iterate_succ_leave heq] at hn
      obtain rfl := Option.some.inj hn
      exact ⟨List.suffix_rfl, fun h hh hnot => absurd hh hnot⟩
    · exact absurd hnil ht
    · rw [Loop.iterate_succ_again heq] at hn
      obtain ⟨hsuffix, hlater⟩ := ih (hst.step heq) (by simp) hn
      obtain ⟨heg, hconn⟩ := picks_mem hpicks
      have hsub : (e :: st.t).toFinset ⊆ r.toFinset := fun x hx =>
        List.mem_toFinset.2 (hsuffix.subset (List.mem_toFinset.1 hx))
      have hgrow : st.reached ⊆ nodes ends (e :: st.t).toFinset :=
        nodes_mono fun x hx => by simpa using .inr (List.mem_toFinset.1 hx)
      refine ⟨(List.suffix_cons e st.t).trans hsuffix, fun h hh hnot => ?_⟩
      by_cases hhe : h = e
      · subst hhe
        exact ⟨heg, fun _ => hconn⟩
      obtain ⟨hhg, hconn'⟩ := hlater h hh (by simp [hhe, hnot])
      refine ⟨(mem_remFromGraph.1 hhg).1, fun hcross => ?_⟩
      have hboth := hr.not_both_mem_nodes (hst.step heq).connected hsub (List.mem_toFinset.2 hh)
        (by simp [hhe, hnot])
      have hfst : (ends h).1 ∈ st.reached → (ends h).1 ∈ nodes ends (e :: st.t).toFinset := (hgrow ·)
      have hsnd : (ends h).2 ∈ st.reached → (ends h).2 ∈ nodes ends (e :: st.t).toFinset := (hgrow ·)
      by_cases hcross' : Crosses ends (nodes ends (e :: st.t).toFinset) h
      · obtain ⟨x, hx, hxh⟩ := hconn' hcross'
        rcases List.mem_cons.1 hx with rfl | hx
        · -- the edge would start at the new node, and lead to the tree or away from it
          have hend : (ends h).1 ∈ nodes ends (x :: st.t).toFinset :=
            ⟨x, by simp, .inr hxh⟩
          have hnew : (ends h).1 ∉ st.reached := fun hmem =>
            dest_notMem_reached hr hnodup hst hpicks hsuffix (hxh ▸ hmem)
          rw [Crosses] at hcross hcross'
          grind
        · exact ⟨x, hx, hxh⟩
      · rw [Crosses] at hcross hcross'
        grind

/-- If the result is a minimum spanning tree, every pick is the lightest edge. -/
theorem lightest_of_isMst (hmst : IsMst g (mst g)) (hst : Loop.Visits primMst (start g) st)
    (ht : st.t ≠ []) : Lightest g st := by
  have hgrows := grows_of_visits hst
  obtain ⟨n, hn⟩ := hst.returns_iff.1 (returns_mst g)
  have hacyclic := hmst.isMinimum.isSpanningTree.acyclic
  obtain ⟨hsuffix, hlater⟩ := rest_of_iterate hacyclic hmst.nodup hgrows ht hn
  obtain ⟨heq, -, hpicks⟩ | ⟨e, rest, hnil, -⟩ | ⟨e, -, hpicks, heq⟩ := primMst_cases st
  · have hr : mst g = st.t := by
      cases n with
      | zero => cases hn
      | succ n =>
        rw [Loop.iterate_succ_leave heq] at hn
        exact (Option.some.inj hn).symm
    unfold Lightest
    rw [hpicks ht]
    intro f hf hcross
    obtain ⟨h, hh, hhS, -⟩ := hmst.isMinimum.exists_le (List.mem_toFinset.2 hf) hcross
    rw [hr] at hh
    exact not_crosses_nodes hh hhS
  · exact absurd hnil ht
  · obtain ⟨heg, hconn⟩ := picks_mem hpicks
    have hn' : ∃ m, Loop.iterate primMst m ⟨e :: st.t, remFromGraph e.2.2 st.g,
        remFromList e.2.2 st.u⟩ = some (mst g) := (Loop.returns_of_again heq).1 ⟨n, hn⟩
    obtain ⟨m, hm⟩ := hn'
    obtain ⟨hsuffix', -⟩ := rest_of_iterate hacyclic hmst.nodup (hgrows.step heq) (by simp) hm
    have hnew := dest_notMem_reached hacyclic hmst.nodup hgrows hpicks hsuffix'
    unfold Lightest
    rw [hpicks]
    refine ⟨fun hiff => hnew (hiff.1 (mem_reached_of_conn hconn)), fun f hf hcross => ?_⟩
    obtain ⟨h, hh, hhS, hle⟩ := hmst.isMinimum.exists_le (List.mem_toFinset.2 hf) hcross
    have hnot : h ∉ st.t := fun hmem => not_crosses_reached hmem hhS
    obtain ⟨hhg, hhconn⟩ := hlater h (List.mem_toFinset.1 hh) hnot
    exact (picks_le hpicks hgrows.sorted hhg (hhconn hhS)).trans hle

/-- For a connected graph without self-loops, `mst` gives a minimum spanning tree if and only if in
every call behind the first one the edge that is picked is a lightest edge between a node of the tree
and another one, and there is none when no edge is picked. -/
theorem isMst_mst_iff (g : List (Edge V K)) (hloop : ∀ e ∈ g, e.1 ≠ e.2.2)
    (hg : IsConnected ends g.toFinset) :
    IsMst g (mst g) ↔
      ∀ st, Loop.Visits primMst (start g) st → st.t ≠ [] → Lightest g st :=
  ⟨fun hmst _ => lightest_of_isMst hmst, isMst_of_lightest hloop hg⟩

/-- The graph `a76_ex1` of the tests. -/
def a76Ex1 : List (Edge ℤ ℚ) := [(0, 1, 1), (0, 4, 2), (1, 2, 2), (1, 1, 3), (2, 3, 3)]

/-- In `a76_ex1` three edges are picked, two of them behind the first call. -/
theorem isMst_mst_iff_three_picks :
    IsMst a76Ex1 (mst a76Ex1) ↔
      ∀ st, Loop.Visits primMst (start a76Ex1) st → st.t ≠ [] → Lightest a76Ex1 st := by
  refine isMst_mst_iff a76Ex1 (by decide) ?_
  -- each edge starts at a node of the edges before it
  have horder : a76Ex1.toFinset =
      insert (2, 3, 3) (insert (1, 1, 3) (insert (1, 2, 2) (insert (0, 4, 2) (insert (0, 1, 1) ∅)))) := by
    decide
  rw [horder]
  refine ((((isConnected_empty.insert_edge (.inl rfl)).insert_edge (.inr ?_)).insert_edge
    (.inr ?_)).insert_edge (.inr ?_)).insert_edge (.inr ?_)
  · exact ⟨(0, 1, 1), by simp, .inl rfl⟩
  · exact ⟨(0, 1, 1), by simp, .inr rfl⟩
  · exact ⟨(1, 2, 2), by simp, .inl rfl⟩
  · exact ⟨(1, 2, 2), by simp, .inr rfl⟩

/-- Two edges that start at the same node: only the first one is picked. -/
def star : List (Edge ℤ ℚ) := [(0, 1, 1), (0, 2, 2)]

theorem mst_star : mst star = [(0, 1, 1)] := by decide

/-- The edge to the node 2 is missing from the result. -/
theorem not_isMst_star :
    (∀ e ∈ star, e.1 ≠ e.2.2) ∧ IsConnected ends star.toFinset ∧ ¬ IsMst star (mst star) := by
  refine ⟨by simp [star], ?_, fun hmst => ?_⟩
  · rw [star, List.toFinset_cons, List.toFinset_cons, List.toFinset_nil]
    refine (isConnected_empty.insert_edge (.inl rfl)).insert_edge (.inr ?_)
    exact ⟨(0, 2, 2), by simp, .inl rfl⟩
  · have hconn : Connected ends (mst star).toFinset 0 2 :=
      hmst.isMinimum.isSpanningTree.connected 0 ⟨(0, 1, 1), by simp [star], .inl rfl⟩
        2 ⟨(0, 2, 2), by simp [star], .inr rfl⟩
    rw [mst_star] at hconn
    obtain ⟨e, he, hcross⟩ := hconn.exists_crosses (S := {0, 1}) (by simp) (by simp)
    obtain rfl : e = (0, 1, 1) := by simpa using he
    exact hcross (by simp [ends])

end Sem3.Mst
