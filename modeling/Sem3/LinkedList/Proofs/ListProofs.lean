import Sem3.LinkedList.Spec

/-!
# Proofs: the list functions

One theorem per function of `list.c`: called on a structure that represents a sequence, the function
returns, and the structure it leaves represents the sequence that `specStep` says.
-/

namespace Sem3.LinkedList

open Chain Loop

variable {α : Type*} {s : Store α} {xs : List (ℕ × α)} {fuel : ℕ}

/-! ## The represented sequence -/

/-- The nodes determine the sequence. -/
theorem Repr.unique {ys : List (ℕ × α)} (h : Repr s xs) (h' : Repr s ys) : xs = ys :=
  h.chain.unique h'.chain

/-- `first` is `NULL` for the empty sequence only. -/
theorem Repr.first_eq_none_iff (h : Repr s xs) : s.first = none ↔ xs = [] :=
  h.chain.eq_none_iff

/-- `last` is `NULL` for the empty sequence only. -/
theorem Repr.last_eq_none_iff (h : Repr s xs) : s.last = none ↔ xs = [] := by
  rw [h.last, List.getLast?_eq_none_iff, List.map_eq_nil_iff]

theorem nodup_snoc {n : ℕ} {d : α} :
    (nodes (xs ++ [(n, d)])).Nodup ↔ n ∉ nodes xs ∧ (nodes xs).Nodup := by
  rw [nodes, List.map_append, List.map_singleton, ← List.concat_eq_append, List.nodup_concat,
    and_comm]

/-- The element that `last` points to ends the chain. -/
theorem Repr.last_next (h : Repr s xs) {l : ℕ} (hl : s.last = some l) :
    ∃ d, s.cells l = some ⟨none, d⟩ := by
  rcases List.eq_nil_or_concat' xs with rfl | ⟨ys, x, rfl⟩
  · exact absurd ((h.last_eq_none_iff).2 rfl) (by simp [hl])
  · have hx : x.1 = l := by
      have := h.last
      rw [hl] at this
      simpa using this.symm
    obtain ⟨r, -, -, next, hc, hnext⟩ := seg_append.1 h.chain
    rw [seg_nil] at hnext
    subst hnext hx
    exact ⟨x.2, hc⟩

theorem Repr.empty : Repr (Store.empty : Store α) [] :=
  ⟨rfl, List.nodup_nil, rfl, rfl⟩

theorem setNext_of_eq_some {h : Heap α} {le : ℕ} {c : Cell α} (hc : h le = some c) (q : Option ℕ) :
    setNext h le q = some (Function.update h le (some ⟨q, c.data⟩)) := by
  simp [setNext, hc]

/-! ## `list_init`, `list_insert`, `list_append` -/

/-- `list_init` makes the empty sequence. -/
theorem listInit_spec : Repr (listInit s) [] := ⟨rfl, List.nodup_nil, rfl, rfl⟩

theorem Repr.not_mem_of_pick (h : Repr s xs) {malloc : Malloc α} {n : ℕ}
    (hn : malloc.pick s.cells = some n) : n ∉ nodes xs := by
  intro hm
  have := h.chain.isSome_of_mem hm
  rw [malloc.fresh _ _ hn] at this
  exact absurd this (by simp)

/-- `list_insert` changes nothing without memory, and else puts the new element in front. -/
theorem listInsert_spec (h : Repr s xs) (data : α) (malloc : Malloc α) :
    (malloc.pick s.cells = none → listInsert s data malloc = (s, none)) ∧
    (∀ n, malloc.pick s.cells = some n →
      ∃ s', listInsert s data malloc = (s', some n) ∧ Repr s' ((n, data) :: xs)) := by
  refine ⟨fun hn => by simp [listInsert, hn], fun n hn => ?_⟩
  have hmem := h.not_mem_of_pick hn
  refine ⟨_, by simp only [listInsert, hn]; rfl, ?_, ?_, ?_, ?_⟩
  · exact ⟨rfl, s.first, Function.update_self .., h.chain.update hmem _⟩
  · exact List.nodup_cons.2 ⟨hmem, h.nodup⟩
  · rw [h.last]
    cases xs with
    | nil => simp
    | cons x xs => simp
  · simp [h.size]

/-- `list_append` changes nothing without memory, and else puts the new element behind. -/
theorem listAppend_spec (h : Repr s xs) (data : α) (malloc : Malloc α) :
    (malloc.pick s.cells = none → listAppend s data malloc = some (s, none)) ∧
    (∀ n, malloc.pick s.cells = some n →
      ∃ s', listAppend s data malloc = some (s', some n) ∧ Repr s' (xs ++ [(n, data)])) := by
  refine ⟨fun hn => by simp [listAppend, hn], fun n hn => ?_⟩
  have hmem := h.not_mem_of_pick hn
  rcases List.eq_nil_or_concat' xs with rfl | ⟨ys, ⟨l, d⟩, rfl⟩
  · have hf := h.first_eq_none_iff.2 rfl
    have hl := h.last_eq_none_iff.2 rfl
    refine ⟨_, by simp only [listAppend, hn, hl]; rfl, ?_, ?_, ?_, ?_⟩
    · exact ⟨by simp [hf], none, Function.update_self .., rfl⟩
    · simp
    · simp
    · simp [h.size]
  · have hl : s.last = some l := by simp [h.last]
    have hf : s.first ≠ none := by simp [h.first_eq_none_iff]
    have hln : l ≠ n := by rintro rfl; simp at hmem
    have hnd := nodup_snoc.1 h.nodup
    obtain ⟨d', hc⟩ := h.last_next hl
    have hc' : Function.update s.cells n (some ⟨none, data⟩) l = some ⟨none, d'⟩ := by
      rw [Function.update_of_ne hln]
      exact hc
    have hset := setNext_of_eq_some hc' (some n)
    have hd : d' = d := by
      obtain ⟨r, -, -, next, hcell, -⟩ := seg_append.1 h.chain
      rw [hc] at hcell
      exact (Cell.mk.inj (Option.some.inj hcell)).2
    subst hd
    refine ⟨_, by simp only [listAppend, hn, hl, hset]; rfl, ?_, ?_, ?_, ?_⟩
    · simp only [hf, if_false]
      refine seg_append.2 ⟨some n, Seg.relink (h.chain.update hmem _) hnd.1 _, rfl, none, ?_, rfl⟩
      simp [Function.update_of_ne hln.symm]
    · exact nodup_snoc.2 ⟨hmem, h.nodup⟩
    · simp
    · simp [h.size]; omega

/-! ## `list_remove` -/

theorem listRemoveStep_unlink {pre post : List (ℕ × α)} {le nel : ℕ} {d e : α}
    (h : Repr s (pre ++ (le, d) :: (nel, e) :: post)) :
    ∃ s', listRemoveStep s (some nel) le = .leave (some (s', 0)) ∧ Repr s' (pre ++ (le, d) :: post) := by
  obtain ⟨r, -, -, next, hc, rfl, nx, hnel, hpost⟩ := seg_append.1 h.chain
  have hset := fun q => setNext_of_eq_some hc q
  have hchain := h.chain.unlink h.nodup hnel
  have hnd : (nodes (pre ++ (le, d) :: post)).Nodup := by
    refine List.Nodup.sublist ?_ h.nodup
    exact List.Sublist.map _ (List.Sublist.append_left (by simp) _)
  have hsize : s.size - 1 = ((pre ++ (le, d) :: post).length : ℤ) := by
    rw [h.size]; simp; omega
  cases post with
  | nil =>
    have hlast : s.last = some nel := by simp [h.last]
    rw [seg_nil] at hpost
    subst hpost
    refine ⟨_, by simp only [listRemoveStep, hc, hlast, if_true, hset]; rfl, hchain, hnd, ?_, hsize⟩
    simp
  | cons y post =>
    -- the last node lies behind `nel`, and the nodes are distinct
    have hlast : s.last = (nodes (y :: post)).getLast? := by simp [h.last, List.getLast?_cons]
    have hne : some nel ≠ s.last := by
      intro heq
      have hmem : nel ∈ nodes (y :: post) := List.mem_of_getLast? (hlast.symm.trans heq.symm)
      have := h.nodup
      simp only [nodes, List.map_append, List.map_cons, List.nodup_append, List.nodup_cons] at this
      exact this.2.1.2.1 (by simpa using hmem)
    refine ⟨_, by simp only [listRemoveStep, hc, hne, hnel, if_true, if_false, hset]; rfl, hchain,
      hnd, ?_, hsize⟩
    simp [hlast, List.getLast?_cons]

/-- The search loop of `list_remove`, at an element `le` with the elements `pre` before it and
`post` behind it: if `elem` is in `post` it is deleted, and otherwise nothing happens. -/
theorem listRemove_loop (h : Repr s xs) (elem : Option ℕ) (post : List (ℕ × α)) :
    ∀ (pre : List (ℕ × α)) (le : ℕ) (d : α), xs = pre ++ (le, d) :: post →
      ((∀ n ∈ nodes post, elem ≠ some n) ∧
        iterate (listRemoveStep s elem) (post.length + 1) le = some (some (s, -1))) ∨
      ∃ s', (∃ n ∈ nodes post, elem = some n) ∧
        iterate (listRemoveStep s elem) (post.length + 1) le = some (some (s', 0)) ∧
        Repr s' (pre ++ (le, d) :: post.eraseP fun x => some x.1 = elem) := by
  induction post with
  | nil =>
    rintro pre le d rfl
    obtain ⟨r, -, -, next, hc, rfl⟩ := seg_append.1 h.chain
    exact Or.inl ⟨by simp, iterate_succ_leave (by simp only [listRemoveStep, hc]) _⟩
  | cons x post ih =>
    obtain ⟨nel, e⟩ := x
    rintro pre le d rfl
    by_cases he : some nel = elem
    · subst he
      obtain ⟨s', hstep, hrepr⟩ := listRemoveStep_unlink h
      refine Or.inr ⟨s', ⟨nel, by simp, rfl⟩, iterate_succ_leave hstep _, ?_⟩
      rw [List.eraseP_cons_of_pos (by simp)]
      exact hrepr
    · obtain ⟨r, -, -, next, hc, rfl, -⟩ := seg_append.1 h.chain
      have hstep : listRemoveStep s elem le = .again nel := by
        simp only [listRemoveStep, hc, he, if_false]
      rw [List.length_cons, iterate_succ_again hstep]
      rcases ih (pre ++ [(le, d)]) nel e (by simp) with ⟨hno, hret⟩ | ⟨s', ⟨n, hn, hen⟩, hret, hrepr⟩
      · refine Or.inl ⟨?_, hret⟩
        intro n hn
        rcases List.mem_cons.1 hn with rfl | hn
        · exact fun hen => he hen.symm
        · exact hno n hn
      · refine Or.inr ⟨s', ⟨n, List.mem_cons_of_mem _ hn, hen⟩, hret, ?_⟩
        rw [List.eraseP_cons_of_neg (by simpa using he)]
        simpa using hrepr

/-- `list_remove` deletes exactly the element it is given and returns 0; given `NULL` or a pointer
that is not in the list, it returns -1 and changes nothing. -/
theorem listRemove_spec (h : Repr s xs) (hfuel : xs.length < fuel) (elem : Option ℕ) :
    ((∀ n ∈ nodes xs, elem ≠ some n) ∧ listRemove fuel s elem = some (s, -1)) ∨
    ∃ s', (∃ n ∈ nodes xs, elem = some n) ∧ listRemove fuel s elem = some (s', 0) ∧
      Repr s' (xs.eraseP fun x => some x.1 = elem) := by
  cases xs with
  | nil =>
    have hf := h.first_eq_none_iff.2 rfl
    exact Or.inl ⟨by simp, by simp [listRemove, hf]⟩
  | cons x xs =>
    obtain ⟨f, d⟩ := x
    obtain ⟨hf, next, hc, hseg⟩ := h.chain
    by_cases he : elem = some f
    · subst he
      have hnd := List.nodup_cons.1 h.nodup
      refine Or.inr ⟨_, ⟨f, by simp, rfl⟩, by simp only [listRemove, hf, if_true, hc]; rfl, ?_⟩
      rw [List.eraseP_cons_of_pos (by simp)]
      refine ⟨hseg.update hnd.1 _, hnd.2, ?_, by simp [h.size]⟩
      rw [h.last]
      cases xs with
      | nil => simp
      | cons y ys =>
        have hne : some f ≠ (nodes (y :: ys)).getLast? := fun heq =>
          hnd.1 (List.mem_of_getLast? heq.symm)
        simpa [List.getLast?_cons] using hne
    · have hrm : listRemove fuel s elem = (iterate (listRemoveStep s elem) fuel f).join := by
        simp only [listRemove, hf, he, if_false]
      rcases listRemove_loop h elem xs [] f d rfl with ⟨hno, hret⟩ | ⟨s', ⟨n, hn, hen⟩, hret, hrepr⟩
      · refine Or.inl ⟨?_, by rw [hrm, iterate_mono (by simpa using hfuel.le) hret]; rfl⟩
        intro n hn
        rcases List.mem_cons.1 hn with rfl | hn
        · exact he
        · exact hno n hn
      · refine Or.inr ⟨s', ⟨n, List.mem_cons_of_mem _ hn, hen⟩,
          by rw [hrm, iterate_mono (by simpa using hfuel.le) hret]; rfl, ?_⟩
        rw [List.eraseP_cons_of_neg (by simpa using fun hfe => he hfe.symm)]
        exact hrepr

/-! ## `list_find`, `list_finit`, `list_to_array` -/

/-- The loop of `list_find` on the elements that are left. -/
theorem listFind_loop (data : α) (cmpElem : α → α → ℤ) (ys : List (ℕ × α)) :
    ∀ le, Seg s.cells le ys none →
      iterate (listFindStep s data cmpElem) (ys.length + 1) le =
        some (some ((ys.find? fun x => cmpElem x.2 data = 0).map Prod.fst)) := by
  induction ys with
  | nil =>
    rintro le rfl
    exact iterate_succ_leave rfl 0
  | cons y ys ih =>
    rintro le ⟨rfl, next, hc, hseg⟩
    by_cases hcmp : cmpElem y.2 data = 0
    · rw [List.find?_cons_of_pos (by simpa using hcmp)]
      exact iterate_succ_leave (by simp only [listFindStep, hc, hcmp, if_true]; rfl) _
    · have hstep : listFindStep s data cmpElem (some y.1) = .again next := by
        simp only [listFindStep, hc, hcmp, if_false]
      rw [List.find?_cons_of_neg (by simpa using hcmp), List.length_cons, iterate_succ_again hstep]
      exact ih next hseg

/-- `list_find` finds the first element with the data. -/
theorem listFind_spec (h : Repr s xs) (hfuel : xs.length < fuel) (data : α)
    (cmpElem : α → α → ℤ) :
    listFind fuel s data cmpElem =
      some ((xs.find? fun x => cmpElem x.2 data = 0).map Prod.fst) := by
  rw [listFind, iterate_mono hfuel (listFind_loop data cmpElem xs s.first h.chain)]
  rfl

/-- The loop of `list_finit` removes all elements. -/
theorem listFinit_loop (xs : List (ℕ × α)) :
    ∀ s : Store α, Repr s xs → xs.length < fuel →
      ∃ s', iterate (listFinitStep fuel) (xs.length + 1) s = some (some s') ∧ Repr s' [] := by
  induction xs with
  | nil =>
    intro s h _
    exact ⟨s, iterate_succ_leave (by simp only [listFinitStep, h.first_eq_none_iff.2 rfl]) _, h⟩
  | cons x xs ih =>
    intro s h hfuel
    have hf : s.first = some x.1 := h.chain.1
    rcases listRemove_spec h hfuel (some x.1) with ⟨hno, -⟩ | ⟨s', -, hrm, hrepr⟩
    · exact absurd rfl (hno x.1 (by simp))
    · rw [List.eraseP_cons_of_pos (by simp)] at hrepr
      obtain ⟨s'', hret, hrepr'⟩ := ih s' hrepr (by simp at hfuel; omega)
      refine ⟨s'', ?_, hrepr'⟩
      have hstep : listFinitStep fuel s = .again s' := by
        simp only [listFinitStep, hf, hrm]
      rw [List.length_cons, iterate_succ_again hstep]
      exact hret

/-- `list_finit` makes the empty sequence. -/
theorem listFinit_spec (h : Repr s xs) (hfuel : xs.length < fuel) :
    ∃ s', listFinit fuel s = some s' ∧ Repr s' [] := by
  obtain ⟨s', hret, hrepr⟩ := listFinit_loop xs s h hfuel
  refine ⟨{ s' with size := 0 }, ?_, hrepr.chain, hrepr.nodup, hrepr.last, rfl⟩
  rw [listFinit, iterate_mono hfuel hret]
  rfl

/-- The loop of `list_to_array` stores the data of the elements that are left, and `NULL`. -/
theorem listToArray_loop (ys : List (ℕ × α)) :
    ∀ nel i stores, Seg s.cells nel ys none →
      iterate (listToArrayStep s) (ys.length + 1) (nel, i, stores) =
        some (some (stores ++
          (((ys.map Prod.snd).map some ++ [none]).zipIdx i).map Prod.swap)) := by
  induction ys with
  | nil =>
    rintro nel i stores rfl
    exact iterate_succ_leave rfl 0
  | cons y ys ih =>
    rintro nel i stores ⟨rfl, next, hc, hseg⟩
    have hstep : listToArrayStep s (some y.1, i, stores) =
        .again (next, i + 1, stores ++ [(i, some y.2)]) := by
      simp only [listToArrayStep, hc]
    rw [List.length_cons, iterate_succ_again hstep, ih next (i + 1) _ hseg]
    simp

/-- `list_to_array` stores all data in their order, and `NULL` behind them. -/
theorem listToArray_spec (h : Repr s xs) (hfuel : xs.length < fuel) :
    listToArray fuel s =
      some { capacity := xs.length + 1, stores := fill (xs.map Prod.snd) } := by
  rw [listToArray, iterate_mono hfuel (listToArray_loop xs s.first 0 [] h.chain), h.size]
  simp [fill]

/-! ## The blocks in use -/

/-- There is a `malloc` that succeeds on every heap with finitely many blocks. -/
theorem exists_succeeds (α : Type*) : ∃ malloc : Malloc α, malloc.Succeeds := by
  classical
  refine ⟨⟨fun h => if hex : ∃ n, h n = none then some hex.choose else none, fun h n hn => ?_⟩,
    fun h hex => ?_⟩
  · split_ifs at hn with hex
    exact Option.some.inj hn ▸ hex.choose_spec
  · simp [hex]

theorem Store.FinitelyUsed.empty : (Store.empty : Store α).FinitelyUsed := by
  simp [Store.FinitelyUsed, Store.empty]

/-- There are infinitely many addresses, so one of them is free. -/
theorem Store.FinitelyUsed.pick_ne_none (h : s.FinitelyUsed) {malloc : Malloc α}
    (hm : malloc.Succeeds) : malloc.pick s.cells ≠ none := by
  obtain ⟨n, hn⟩ := h.exists_notMem
  exact hm s.cells ⟨n, by simpa using hn⟩

theorem free_ne_none {h : Heap α} {n m : ℕ} (hm : free h n m ≠ none) : h m ≠ none := by
  by_cases hne : m = n
  · subst hne
    simp [free] at hm
  · rwa [free, Function.update_of_ne hne] at hm

theorem setNext_ne_none {h h' : Heap α} {le m : ℕ} {q : Option ℕ} (hset : setNext h le q = some h')
    (hm : h' m ≠ none) : h m ≠ none := by
  obtain ⟨c, hc, rfl⟩ := Option.map_eq_some_iff.1 hset
  by_cases hne : m = le
  · subst hne
    simp [hc]
  · rwa [Function.update_of_ne hne] at hm

/-- `list_append` takes one more block into use. -/
theorem Store.FinitelyUsed.listAppend {s' : Store α} {data : α} {malloc : Malloc α} {r : Option ℕ}
    (h : s.FinitelyUsed) (happend : listAppend s data malloc = some (s', r)) : s'.FinitelyUsed := by
  cases hpick : malloc.pick s.cells with
  | none =>
    simp only [LinkedList.listAppend, hpick] at happend
    obtain ⟨rfl, -⟩ := Prod.mk.inj (Option.some.inj happend)
    exact h
  | some n =>
    have hadd : ∀ m, Function.update s.cells n (some ⟨none, data⟩) m ≠ none →
        m ∈ insert n {m | s.cells m ≠ none} := by
      intro m hm
      by_cases hne : m = n
      · exact .inl hne
      · rw [Function.update_of_ne hne] at hm
        exact .inr hm
    cases hlast : s.last with
    | none =>
      simp only [LinkedList.listAppend, hpick, hlast] at happend
      obtain ⟨rfl, -⟩ := Prod.mk.inj (Option.some.inj happend)
      exact (h.insert n).subset hadd
    | some l =>
      simp only [LinkedList.listAppend, hpick, hlast] at happend
      obtain ⟨cells, hset, heq⟩ := Option.map_eq_some_iff.1 happend
      obtain ⟨rfl, -⟩ := Prod.mk.inj heq
      exact (h.insert n).subset fun m hm => hadd m (setNext_ne_none hset hm)

/-- A pass of `list_remove` takes no block into use. -/
theorem listRemoveStep_ne_none {s' : Store α} {elem : Option ℕ} {le m : ℕ} {r : ℤ}
    (hstep : listRemoveStep s elem le = .leave (some (s', r))) (hm : s'.cells m ≠ none) :
    s.cells m ≠ none := by
  simp only [listRemoveStep] at hstep
  split at hstep
  · cases hstep
  split at hstep
  · cases hstep
    exact hm
  split_ifs at hstep
  · obtain ⟨cells, hset, heq⟩ := Option.map_eq_some_iff.1 (Pass.leave.inj hstep)
    obtain ⟨rfl, -⟩ := Prod.mk.inj heq
    exact setNext_ne_none hset (free_ne_none hm)
  · obtain ⟨c, -, hc⟩ := Option.bind_eq_some_iff.1 (Pass.leave.inj hstep)
    obtain ⟨cells, hset, heq⟩ := Option.map_eq_some_iff.1 hc
    obtain ⟨rfl, -⟩ := Prod.mk.inj heq
    exact setNext_ne_none hset (free_ne_none hm)

/-- `list_remove` takes no block into use. -/
theorem Store.FinitelyUsed.listRemove {s' : Store α} {elem : Option ℕ} {r : ℤ} (h : s.FinitelyUsed)
    (hremove : listRemove fuel s elem = some (s', r)) : s'.FinitelyUsed := by
  refine Set.Finite.subset h fun m hm => ?_
  rw [LinkedList.listRemove] at hremove
  split at hremove
  · obtain ⟨rfl, -⟩ := Prod.mk.inj (Option.some.inj hremove)
    exact hm
  next f _ =>
    by_cases hfirst : elem = some f
    · rw [if_pos hfirst] at hremove
      obtain ⟨c, -, heq⟩ := Option.map_eq_some_iff.1 hremove
      obtain ⟨rfl, -⟩ := Prod.mk.inj heq
      exact free_ne_none hm
    · rw [if_neg hfirst] at hremove
      obtain ⟨le, -, hstep⟩ := Returns.exists_visits ⟨fuel, Option.join_eq_some_iff.1 hremove⟩
      exact listRemoveStep_ne_none hstep hm

/-! ## Runs -/

/-- Every call returns, and does to the represented sequence what `specStep` says. -/
theorem exec_spec (h : Repr s xs) (hfuel : xs.length < fuel) (op : Op α) :
    ∃ s' ret, exec fuel s op = some (s', ret) ∧
      Repr s' (specStep (op.answer s) op xs).1 ∧ ret = (specStep (op.answer s) op xs).2 := by
  cases op with
  | init => exact ⟨_, _, rfl, listInit_spec, rfl⟩
  | insert data malloc =>
    obtain ⟨hnone, hsome⟩ := listInsert_spec h data malloc
    cases hn : malloc.pick s.cells with
    | none => exact ⟨_, _, by simp only [exec, hnone hn]; rfl, by simpa [specStep, Op.answer, hn] using h,
        by simp [specStep, Op.answer, hn]⟩
    | some n =>
      obtain ⟨s', hret, hrepr⟩ := hsome n hn
      exact ⟨_, _, by simp only [exec, hret]; rfl, by simpa [specStep, Op.answer, hn] using hrepr,
        by simp [specStep, Op.answer, hn]⟩
  | append data malloc =>
    obtain ⟨hnone, hsome⟩ := listAppend_spec h data malloc
    cases hn : malloc.pick s.cells with
    | none => exact ⟨_, _, by simp only [exec, hnone hn]; rfl, by simpa [specStep, Op.answer, hn] using h,
        by simp [specStep, Op.answer, hn]⟩
    | some n =>
      obtain ⟨s', hret, hrepr⟩ := hsome n hn
      exact ⟨_, _, by simp only [exec, hret]; rfl, by simpa [specStep, Op.answer, hn] using hrepr,
        by simp [specStep, Op.answer, hn]⟩
  | remove elem =>
    rcases listRemove_spec h hfuel elem with ⟨hno, hret⟩ | ⟨s', hmem, hret, hrepr⟩
    · have hno' : ¬ ∃ n ∈ nodes xs, elem = some n := by
        rintro ⟨n, hn, he⟩
        exact hno n hn he
      exact ⟨_, _, by simp only [exec, hret]; rfl, by simpa only [specStep, hno', if_false] using h,
        by simp only [specStep, hno', if_false]⟩
    · exact ⟨_, _, by simp only [exec, hret]; rfl, by simpa only [specStep, hmem, if_true] using hrepr,
        by simp only [specStep, hmem, if_true]⟩
  | find data cmpElem =>
    exact ⟨_, _, by simp only [exec, listFind_spec h hfuel]; rfl, h, rfl⟩
  | finit =>
    obtain ⟨s', hret, hrepr⟩ := listFinit_spec h hfuel
    exact ⟨_, _, by simp only [exec, hret]; rfl, hrepr, rfl⟩
  | toArray => exact ⟨_, _, by simp only [exec, listToArray_spec h hfuel]; rfl, h, rfl⟩

theorem length_specStep_le (xs : List (ℕ × α)) (answer : Option ℕ) (op : Op α) :
    (specStep answer op xs).1.length ≤ xs.length + 1 := by
  cases op with
  | insert | append => cases answer <;> simp [specStep]
  | remove elem =>
    simp only [specStep]
    split_ifs
    · exact (List.length_eraseP_le ..).trans (Nat.le_succ _)
    · simp
  | init | find | finit | toArray => simp [specStep]

/-- A run of operations ends in a store that represents a sequence. -/
theorem run_spec (ops : List (Op α)) :
    ∀ (s : Store α) (xs : List (ℕ × α)), Repr s xs → xs.length + ops.length < fuel →
      ∃ s' ys, run fuel s ops = some s' ∧ Repr s' ys ∧ ys.length ≤ xs.length + ops.length := by
  induction ops with
  | nil => intro s xs h _; exact ⟨s, xs, rfl, h, le_rfl⟩
  | cons op ops ih =>
    intro s xs h hfuel
    rw [List.length_cons] at hfuel
    have hfuel' : xs.length < fuel := by omega
    obtain ⟨s', ret, hexec, hrepr, -⟩ := exec_spec h hfuel' op
    have hlen := length_specStep_le xs (op.answer s) op
    obtain ⟨s'', ys, hrun, hrepr', hle⟩ := ih s' _ hrepr (by omega)
    refine ⟨s'', ys, ?_, hrepr', ?_⟩
    · simp only [run, hexec, Option.bind_some, hrun]
    · rw [List.length_cons]; omega

/-- The list refines a sequence. Whatever calls have been made, the structure represents a sequence
`xs`, and every further call returns what `specStep` says and leaves a structure that represents the
sequence `specStep` says. -/
theorem list_refines_sequence (ops : List (Op α)) (fuel : ℕ) (hfuel : ops.length < fuel) :
    ∃ s xs, run fuel Store.empty ops = some s ∧ Repr s xs ∧
      (s.first = none ↔ s.last = none) ∧
      (∀ l, s.last = some l → ∃ d, s.cells l = some ⟨none, d⟩) ∧
      ∀ op, ∃ s' ret, exec fuel s op = some (s', ret) ∧
        Repr s' (specStep (op.answer s) op xs).1 ∧ ret = (specStep (op.answer s) op xs).2 := by
  obtain ⟨s, xs, hrun, hrepr, hle⟩ := run_spec ops Store.empty [] Repr.empty (by simpa using hfuel)
  refine ⟨s, xs, hrun, hrepr, ?_, fun l hl => hrepr.last_next hl, fun op => ?_⟩
  · rw [hrepr.first_eq_none_iff, hrepr.last_eq_none_iff]
  · exact exec_spec hrepr (by simp at hle; omega) op

/-- Three operations, the last of which removes the last element. -/
theorem list_refines_sequence_append_remove :
    ∃ s xs, run 4 Store.empty [.append 7 (.firstFree 8), .insert 5 (.firstFree 8), .remove (some 0)] =
        some s ∧ Repr s xs ∧
      (s.first = none ↔ s.last = none) ∧
      (∀ l, s.last = some l → ∃ d, s.cells l = some ⟨none, d⟩) ∧
      ∀ op, ∃ s' ret, exec 4 s op = some (s', ret) ∧
        Repr s' (specStep (op.answer s) op xs).1 ∧ ret = (specStep (op.answer s) op xs).2 :=
  list_refines_sequence _ 4 (by decide)

end Sem3.LinkedList
