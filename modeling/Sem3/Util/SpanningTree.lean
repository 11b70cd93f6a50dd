import Mathlib.Algebra.BigOperators.Group.Finset.Basic
import Mathlib.Algebra.Order.Group.Defs
import Mathlib.Algebra.Order.BigOperators.Group.Finset
import Mathlib.Logic.Relation
import Mathlib.Tactic.Abel

/-!
# Minimum spanning trees

Finite graphs whose edges can be used in both directions, given by the ends of each edge; there may
be several edges between two nodes. A set of nodes is a cut, which some of the edges cross.

An edge that crosses a cut can replace an edge of a spanning tree that crosses it (`exchange`). So a
set of edges of a minimum spanning tree that does not cross a cut remains one with a lightest edge
that does (`Promising.insert`), and a minimum spanning tree crosses a cut with an edge as light as
any other one (`IsMinimum.exists_le`).
-/

namespace SpanningTree

open Relation

variable {V E : Type*} {ends : E → V × V} {T T' g t : Finset E} {x y z : V} {S : Set V} {e f h : E}

/-- There is an edge between the two nodes. -/
def Adj (ends : E → V × V) (T : Finset E) (x y : V) : Prop :=
  ∃ e ∈ T, ends e = (x, y) ∨ ends e = (y, x)

/-- There is a way of edges between the two nodes. -/
def Connected (ends : E → V × V) (T : Finset E) : V → V → Prop := ReflTransGen (Adj ends T)

/-- The nodes that are an end of an edge. -/
def nodes (ends : E → V × V) (T : Finset E) : Set V :=
  {x | ∃ e ∈ T, x = (ends e).1 ∨ x = (ends e).2}

/-- There is a way between any two nodes of the edges. -/
def IsConnected (ends : E → V × V) (T : Finset E) : Prop :=
  ∀ x ∈ nodes ends T, ∀ y ∈ nodes ends T, Connected ends T x y

/-- The edge has one end in `S`. -/
def Crosses (ends : E → V × V) (S : Set V) (e : E) : Prop := ¬ ((ends e).1 ∈ S ↔ (ends e).2 ∈ S)

/-! ## Connected nodes -/

theorem Connected.symm (hxy : Connected ends T x y) : Connected ends T y x := by
  induction hxy with
  | refl => exact .refl
  | tail _ hbc ih =>
    obtain ⟨e, he, hends⟩ := hbc
    exact .head ⟨e, he, hends.symm⟩ ih

theorem Connected.trans (hxy : Connected ends T x y) (hyz : Connected ends T y z) :
    Connected ends T x z := ReflTransGen.trans hxy hyz

theorem Connected.mono (hxy : Connected ends T x y) (hsub : T ⊆ T') : Connected ends T' x y := by
  induction hxy with
  | refl => exact .refl
  | tail _ hbc ih =>
    obtain ⟨e, he, hends⟩ := hbc
    exact .tail ih ⟨e, hsub he, hends⟩

theorem connected_of_mem (he : e ∈ T) : Connected ends T (ends e).1 (ends e).2 :=
  .single ⟨e, he, .inl rfl⟩

theorem mem_nodes (he : e ∈ T) : (ends e).1 ∈ nodes ends T ∧ (ends e).2 ∈ nodes ends T :=
  ⟨⟨e, he, .inl rfl⟩, ⟨e, he, .inr rfl⟩⟩

theorem nodes_mono (hsub : T ⊆ T') : nodes ends T ⊆ nodes ends T' :=
  fun _ ⟨e, he, hx⟩ => ⟨e, hsub he, hx⟩

theorem not_crosses_nodes (he : e ∈ T) : ¬ Crosses ends (nodes ends T) e :=
  not_not.2 ⟨fun _ => (mem_nodes he).2, fun _ => (mem_nodes he).1⟩

/-- A path that leaves `S` crosses it. -/
theorem Connected.exists_crosses (hxy : Connected ends T x y) (hx : x ∈ S) (hy : y ∉ S) :
    ∃ e ∈ T, Crosses ends S e := by
  induction hxy with
  | refl => exact absurd hx hy
  | @tail b c _ hbc ih =>
    by_cases hb : b ∈ S
    · obtain ⟨e, he, heq | heq⟩ := hbc
      · exact ⟨e, he, by simp [Crosses, heq, hb, hy]⟩
      · exact ⟨e, he, by simp [Crosses, heq, hb, hy]⟩
    · exact ih hb

variable [DecidableEq E]

/-- A path that may use one more edge does not use it, or uses it in one of its directions. -/
theorem connected_insert_iff : Connected ends (insert e T) x y ↔
    Connected ends T x y ∨
      Connected ends T x (ends e).1 ∧ Connected ends T (ends e).2 y ∨
        Connected ends T x (ends e).2 ∧ Connected ends T (ends e).1 y := by
  constructor
  · intro hxy
    induction hxy with
    | refl => exact .inl .refl
    | @tail b c _ hbc ih =>
      obtain ⟨f, hf, hends⟩ := hbc
      rcases Finset.mem_insert.1 hf with rfl | hf
      · rcases hends with heq | heq <;> rw [heq] at ih ⊢ <;> dsimp only at ih ⊢
        · rcases ih with ih | ⟨hx, -⟩ | ⟨hx, -⟩
          · exact .inr (.inl ⟨ih, .refl⟩)
          · exact .inr (.inl ⟨hx, .refl⟩)
          · exact .inl hx
        · rcases ih with ih | ⟨hx, -⟩ | ⟨hx, -⟩
          · exact .inr (.inr ⟨ih, .refl⟩)
          · exact .inl hx
          · exact .inr (.inr ⟨hx, .refl⟩)
      · have hbc : Connected ends T b c := .single ⟨f, hf, hends⟩
        rcases ih with ih | ⟨hx, hb⟩ | ⟨hx, hb⟩
        · exact .inl (ih.trans hbc)
        · exact .inr (.inl ⟨hx, hb.trans hbc⟩)
        · exact .inr (.inr ⟨hx, hb.trans hbc⟩)
  · have hsub : T ⊆ insert e T := Finset.subset_insert e T
    have he : Connected ends (insert e T) (ends e).1 (ends e).2 :=
      connected_of_mem (Finset.mem_insert_self e T)
    rintro (hxy | ⟨hx, hy⟩ | ⟨hx, hy⟩)
    · exact hxy.mono hsub
    · exact (hx.mono hsub).trans (he.trans (hy.mono hsub))
    · exact (hx.mono hsub).trans (he.symm.trans (hy.mono hsub))

omit [DecidableEq E] in
theorem isConnected_empty : IsConnected ends ∅ :=
  fun _ ⟨_, he, _⟩ => absurd he (Finset.notMem_empty _)

omit [DecidableEq E] in
/-- Where no edge of a connected graph crosses a set of nodes, the set has all nodes or none. -/
theorem IsConnected.nodes_subset (hg : IsConnected ends g) (hx : x ∈ nodes ends g) (hxS : x ∈ S)
    (hS : ∀ e ∈ g, ¬ Crosses ends S e) : nodes ends g ⊆ S := by
  intro y hy
  by_contra hyS
  obtain ⟨e, he, heS⟩ := (hg x hx y hy).exists_crosses hxS hyS
  exact hS e he heS

/-- A connected set of edges remains connected with an edge that starts at one of its nodes. -/
theorem IsConnected.insert_edge (hT : IsConnected ends T) (he : T = ∅ ∨ (ends e).1 ∈ nodes ends T) :
    IsConnected ends (insert e T) := by
  have hsub : T ⊆ insert e T := Finset.subset_insert e T
  have hends : Connected ends (insert e T) (ends e).1 (ends e).2 :=
    connected_of_mem (Finset.mem_insert_self e T)
  have hfirst : ∀ x ∈ nodes ends (insert e T), Connected ends (insert e T) (ends e).1 x := by
    rintro x ⟨f, hf, hx⟩
    rcases Finset.mem_insert.1 hf with rfl | hf
    · rcases hx with rfl | rfl
      · exact .refl
      · exact hends
    · rcases he with rfl | he
      · exact absurd hf (Finset.notMem_empty f)
      · exact (hT _ he x ⟨f, hf, hx⟩).mono hsub
  exact fun x hx y hy => (hfirst x hx).symm.trans (hfirst y hy)

/-- Some of the edges are enough to connect two nodes, and none of these can be left out. -/
theorem Connected.exists_minimal (hxy : Connected ends T x y) :
    ∃ T₀ ⊆ T, Connected ends T₀ x y ∧ ∀ e ∈ T₀, ¬ Connected ends (T₀.erase e) x y := by
  induction T using Finset.strongInduction with
  | _ T ih =>
    by_cases hmin : ∀ e ∈ T, ¬ Connected ends (T.erase e) x y
    · exact ⟨T, subset_rfl, hxy, hmin⟩
    · push Not at hmin
      obtain ⟨e, he, hxy⟩ := hmin
      obtain ⟨T₀, hsub, hT₀⟩ := ih _ (Finset.erase_ssubset he) hxy
      exact ⟨T₀, hsub.trans (Finset.erase_subset e T), hT₀⟩

/-! ## Spanning trees -/

/-- No edge connects what the others do. -/
def Acyclic (ends : E → V × V) (T : Finset E) : Prop :=
  ∀ e ∈ T, ¬ Connected ends (T.erase e) (ends e).1 (ends e).2

/-- An edge of a tree has not both ends among the nodes of a connected part that it is not in. -/
theorem Acyclic.not_both_mem_nodes (hT : Acyclic ends T) (ht : IsConnected ends t) (hsub : t ⊆ T)
    (he : e ∈ T) (hnot : e ∉ t) : ¬ ((ends e).1 ∈ nodes ends t ∧ (ends e).2 ∈ nodes ends t) :=
  fun hends => hT e he ((ht _ hends.1 _ hends.2).mono (Finset.subset_erase.2 ⟨hsub, hnot⟩))

/-- A part of the edges that has no cycle and connects all nodes that the edges connect. -/
structure IsSpanningTree (ends : E → V × V) (g T : Finset E) : Prop where
  subset : T ⊆ g
  acyclic : Acyclic ends T
  connected : ∀ x ∈ nodes ends g, ∀ y ∈ nodes ends g, Connected ends T x y

/-- A connected graph has a spanning tree. -/
theorem exists_isSpanningTree (hg : IsConnected ends g) : ∃ T, IsSpanningTree ends g T := by
  have key : ∀ T ⊆ g, (∀ x ∈ nodes ends g, ∀ y ∈ nodes ends g, Connected ends T x y) →
      ∃ T, IsSpanningTree ends g T := by
    intro T
    induction T using Finset.strongInduction with
    | _ T ih =>
      intro hsub hconn
      by_cases hacyclic : Acyclic ends T
      · exact ⟨T, hsub, hacyclic, hconn⟩
      · unfold Acyclic at hacyclic
        push Not at hacyclic
        obtain ⟨e, he, hends⟩ := hacyclic
        refine ih _ (Finset.erase_ssubset he) ((Finset.erase_subset e T).trans hsub) ?_
        intro x hx y hy
        have hxy := hconn x hx y hy
        rw [← Finset.insert_erase he, connected_insert_iff] at hxy
        rcases hxy with hxy | ⟨hx, hy⟩ | ⟨hx, hy⟩
        · exact hxy
        · exact hx.trans (hends.trans hy)
        · exact hx.trans (hends.symm.trans hy)
  exact key g subset_rfl hg

/-- A tree that connects the ends of an edge across a cut has an edge across it that it cannot do
without. -/
theorem Acyclic.exists_crosses (hT : Acyclic ends T)
    (hf : Connected ends T (ends f).1 (ends f).2) (hcross : Crosses ends S f) :
    ∃ h ∈ T, Crosses ends S h ∧ ¬ Connected ends (T.erase h) (ends f).1 (ends f).2 := by
  obtain ⟨T₀, hsub, hconn, hmin⟩ := hf.exists_minimal
  obtain ⟨h, hh, hhS⟩ : ∃ h ∈ T₀, Crosses ends S h := by
    by_cases hx : (ends f).1 ∈ S
    · exact hconn.exists_crosses hx (by simpa [Crosses, hx] using hcross)
    · exact hconn.symm.exists_crosses (by simpa [Crosses, hx] using hcross) hx
  refine ⟨h, hsub hh, hhS, fun hends => ?_⟩
  have herase : T₀.erase h ⊆ T.erase h := Finset.erase_subset_erase h hsub
  rw [← Finset.insert_erase hh, connected_insert_iff] at hconn
  rcases hconn with hconn | ⟨hx, hy⟩ | ⟨hx, hy⟩
  · exact hmin h hh hconn
  · exact hT h (hsub hh) ((hx.mono herase).symm.trans (hends.trans (hy.mono herase).symm))
  · exact hT h (hsub hh) ((hy.mono herase).trans (hends.symm.trans (hx.mono herase)))

/-- An edge across a cut can replace an edge of a spanning tree across it. -/
theorem IsSpanningTree.exchange (hT : IsSpanningTree ends g T) (hf : f ∈ g)
    (hcross : Crosses ends S f) :
    ∃ h ∈ T, Crosses ends S h ∧ (f ∈ T → h = f) ∧
      IsSpanningTree ends g (insert f (T.erase h)) := by
  by_cases hfT : f ∈ T
  · exact ⟨f, hfT, hcross, fun _ => rfl, by rwa [Finset.insert_erase hfT]⟩
  have hconn := hT.connected _ (mem_nodes hf).1 _ (mem_nodes hf).2
  obtain ⟨h, hh, hhS, hnot⟩ := hT.acyclic.exists_crosses hconn hcross
  refine ⟨h, hh, hhS, fun hmem => absurd hmem hfT, ?_, ?_, ?_⟩
  · exact Finset.insert_subset hf ((Finset.erase_subset h T).trans hT.subset)
  · intro e he hends
    rcases Finset.mem_insert.1 he with rfl | heT
    · have hnotin : e ∉ T.erase h := fun hmem => hfT (Finset.mem_of_mem_erase hmem)
      rw [Finset.erase_insert hnotin] at hends
      exact hnot hends
    · have hne : f ≠ e := by
        rintro rfl
        exact hfT (Finset.mem_of_mem_erase heT)
      rw [Finset.erase_insert_of_ne hne, connected_insert_iff] at hends
      have he' : Connected ends (T.erase h) (ends e).1 (ends e).2 := connected_of_mem heT
      have hsub : (T.erase h).erase e ⊆ T.erase h := Finset.erase_subset e _
      rcases hends with hends | ⟨hx, hy⟩ | ⟨hx, hy⟩
      · exact hT.acyclic e (Finset.mem_of_mem_erase heT)
          (hends.mono (Finset.erase_subset_erase e (Finset.erase_subset h T)))
      · exact hnot ((hx.mono hsub).symm.trans (he'.trans (hy.mono hsub).symm))
      · exact hnot ((hy.mono hsub).trans (he'.symm.trans (hx.mono hsub)))
  · -- what the old edge connected is connected by the new one
    have hsub : T.erase h ⊆ insert f (T.erase h) := Finset.subset_insert f _
    have hf' : Connected ends (insert f (T.erase h)) (ends f).1 (ends f).2 :=
      connected_of_mem (Finset.mem_insert_self f _)
    have hh' : Connected ends (insert f (T.erase h)) (ends h).1 (ends h).2 := by
      rw [← Finset.insert_erase hh, connected_insert_iff] at hconn
      rcases hconn with hconn | ⟨hx, hy⟩ | ⟨hx, hy⟩
      · exact absurd hconn hnot
      · exact (hx.mono hsub).symm.trans (hf'.trans (hy.mono hsub).symm)
      · exact (hy.mono hsub).trans (hf'.symm.trans (hx.mono hsub))
    intro x hx y hy
    have hxy := hT.connected x hx y hy
    rw [← Finset.insert_erase hh, connected_insert_iff] at hxy
    rcases hxy with hxy | ⟨hx, hy⟩ | ⟨hx, hy⟩
    · exact hxy.mono hsub
    · exact (hx.mono hsub).trans (hh'.trans (hy.mono hsub))
    · exact (hx.mono hsub).trans (hh'.symm.trans (hy.mono hsub))

/-! ## Weights -/

variable {K : Type*} [AddCommGroup K] [LinearOrder K] [IsOrderedAddMonoid K] {w : E → K}

/-- No spanning tree has less weight. -/
structure IsMinimum (ends : E → V × V) (w : E → K) (g T : Finset E) : Prop where
  isSpanningTree : IsSpanningTree ends g T
  le : ∀ T', IsSpanningTree ends g T' → T.sum w ≤ T'.sum w

omit [LinearOrder K] [IsOrderedAddMonoid K] in
theorem sum_exchange (hh : h ∈ T) (hf : f ∈ T → h = f) :
    (insert f (T.erase h)).sum w = T.sum w - w h + w f := by
  have hnotin : f ∉ T.erase h := by
    intro hmem
    obtain rfl := hf (Finset.mem_of_mem_erase hmem)
    exact Finset.notMem_erase h T hmem
  rw [Finset.sum_insert hnotin, Finset.sum_erase_eq_sub hh]
  abel

/-- A minimum spanning tree crosses a cut with an edge that is as light as any other one. -/
theorem IsMinimum.exists_le (hT : IsMinimum ends w g T) (hf : f ∈ g) (hcross : Crosses ends S f) :
    ∃ h ∈ T, Crosses ends S h ∧ w h ≤ w f := by
  obtain ⟨h, hh, hhS, hfT, hT'⟩ := hT.isSpanningTree.exchange hf hcross
  have hle := hT.le _ hT'
  rw [sum_exchange hh hfT, sub_add_eq_add_sub, le_sub_iff_add_le, add_le_add_iff_left] at hle
  exact ⟨h, hh, hhS, hle⟩

/-- For each spanning tree there is one with these edges that is no heavier. -/
def Promising (ends : E → V × V) (w : E → K) (g t : Finset E) : Prop :=
  ∀ T, IsSpanningTree ends g T → ∃ T', IsSpanningTree ends g T' ∧ t ⊆ T' ∧ T'.sum w ≤ T.sum w

omit [IsOrderedAddMonoid K] in
theorem promising_empty : Promising ends w g ∅ :=
  fun T hT => ⟨T, hT, Finset.empty_subset T, le_rfl⟩

/-- Edges that do not cross a cut remain promising with a lightest edge that does. -/
theorem Promising.insert (ht : Promising ends w g t) (hS : ∀ e ∈ t, ¬ Crosses ends S e)
    (hf : f ∈ g) (hcross : Crosses ends S f) (hmin : ∀ e ∈ g, Crosses ends S e → w f ≤ w e) :
    Promising ends w g (insert f t) := by
  intro T hT
  obtain ⟨T', hT', hsub, hle⟩ := ht T hT
  obtain ⟨h, hh, hhS, hfT, hT''⟩ := hT'.exchange hf hcross
  refine ⟨_, hT'', Finset.insert_subset_insert f fun e he => ?_, ?_⟩
  · refine Finset.mem_erase.2 ⟨?_, hsub he⟩
    rintro rfl
    exact hS e he hhS
  · rw [sum_exchange hh hfT, sub_add_eq_add_sub, sub_le_iff_le_add]
    exact add_le_add hle (hmin h (hT'.subset hh) hhS)

omit [IsOrderedAddMonoid K] in
/-- Promising edges that connect all nodes are a minimum spanning tree. -/
theorem Promising.isMinimum (ht : Promising ends w g t) (hsub : t ⊆ g)
    (hconn : ∀ x ∈ nodes ends g, ∀ y ∈ nodes ends g, Connected ends t x y) :
    IsMinimum ends w g t := by
  have heq : ∀ T, IsSpanningTree ends g T → t ⊆ T → T = t := by
    intro T hT htT
    refine Finset.Subset.antisymm (fun e he => ?_) htT
    by_contra hnotin
    have hends := hconn _ (mem_nodes (hT.subset he)).1 _ (mem_nodes (hT.subset he)).2
    exact hT.acyclic e he (hends.mono (Finset.subset_erase.2 ⟨htT, hnotin⟩))
  obtain ⟨T, hT⟩ := exists_isSpanningTree fun x hx y hy => (hconn x hx y hy).mono hsub
  obtain ⟨T', hT', htT', -⟩ := ht T hT
  refine ⟨heq T' hT' htT' ▸ hT', fun T hT => ?_⟩
  obtain ⟨T', hT', htT', hle⟩ := ht T hT
  rwa [heq T' hT' htT'] at hle

end SpanningTree
