import Sem3.LinkedList.Proofs.ListProofs
import Sem3.Sched.Proofs.ChoiceProofs

/-!
# Proofs: the ready list as a linked list

On a structure that represents a sequence of nodes, `list_getMax` returns the node at the place that
the scheduler on sequences chooses, and `list_remove` takes just that node out. So the algorithms on
the heap do what they do on sequences, and take the first one of the best nodes.
-/

namespace Sem3.Sched.ReadyQueue

open Chain Loop
open LinkedList (Store Malloc Repr listAppend listRemove)

variable {alg : Algo} {ctx : ℕ → Threadcontext} {cmp : Threadcontext → Threadcontext → ℤ}
  {malloc : Malloc ℕ} {s : Store ℕ} {xs zs pre ys : List (ℕ × ℕ)} {x : ℕ × ℕ} {active : Option ℕ}
  {fuel i p a : ℕ} {next : Option ℕ}

/-! ## Nodes -/

/-- The cell of a node of the list. -/
theorem cell_of_getElem? (h : Repr s zs) (hx : zs[i]? = some x) :
    ∃ next, s.cells x.1 = some ⟨next, x.2⟩ := by
  obtain ⟨u, v, rfl⟩ := List.append_of_mem (List.mem_of_getElem? hx)
  obtain ⟨-, -, -, next, hc, -⟩ := seg_append.1 h.chain
  exact ⟨next, hc⟩

/-- The loop of `list_getMax` goes the way it goes on the threads alone. -/
theorem listGetMax_loop (ctx : ℕ → Threadcontext) (cmp : Threadcontext → Threadcontext → ℤ)
    (h : Repr s zs) (ys : List (ℕ × ℕ)) :
    ∀ (pre : List (ℕ × ℕ)) (next : Option ℕ) (p : ℕ) (x : ℕ × ℕ), zs = pre ++ ys →
      Seg s.cells next ys none → zs[p]? = some x →
      ∃ y, zs[(getMaxLoop ctx cmp (threads ys) pre.length (p, x.2)).1]? = some y ∧
        iterate (listGetMaxStep ctx cmp s) (ys.length + 1) (next, some x.1) =
          some (some (some y.1)) := by
  induction ys with
  | nil =>
    rintro pre next p x - hnext hx
    rw [seg_nil] at hnext
    subst hnext
    exact ⟨x, hx, iterate_succ_leave rfl 0⟩
  | cons y ys ih =>
    rintro pre next p x rfl ⟨rfl, next', hc, hseg⟩ hx
    obtain ⟨r, hc'⟩ := cell_of_getElem? h hx
    have hstep : listGetMaxStep ctx cmp s (some y.1, some x.1) =
        .again (next', if cmp (ctx y.2) (ctx x.2) > 0 then some y.1 else some x.1) := by
      simp only [listGetMaxStep, hc, Option.bind_some, hc']
    have hnode : (pre ++ y :: ys)[pre.length]? = some y := by simp
    rw [show threads (y :: ys) = y.2 :: threads ys from rfl, getMaxLoop, List.length_cons,
      iterate_succ_again hstep]
    split_ifs
    · have hrest := ih (pre ++ [y]) next' pre.length y (List.append_cons pre y ys) hseg hnode
      rwa [List.length_append, List.length_singleton] at hrest
    · have hrest := ih (pre ++ [y]) next' p x (List.append_cons pre y ys) hseg hx
      rwa [List.length_append, List.length_singleton] at hrest

/-- `list_getMax` on the nodes finds the node at the place that it finds on the threads. -/
theorem listGetMax_spec (h : Repr s (x :: xs)) (hfuel : (x :: xs).length < fuel) :
    ∃ y, (x :: xs)[Sched.listGetMax ctx cmp x.2 (threads xs)]? = some y ∧
      listGetMax fuel ctx cmp s = some (some y.1) := by
  obtain ⟨y, hy, hloop⟩ := listGetMax_loop ctx cmp h (x :: xs) [] s.first 0 x rfl h.chain rfl
  refine ⟨y, hy, ?_⟩
  rw [listGetMax, h.chain.1]
  rw [h.chain.1] at hloop
  rw [iterate_mono hfuel hloop]
  rfl

/-- The active thread is appended as it is on sequences. -/
theorem appendActive_spec (h : Repr s xs) (hqueued : Queued ctx malloc s xs active zs) :
    ∃ s', appendActive ctx malloc s active = some s' ∧ Repr s' zs ∧
      ((∀ a, active = some a → ¬ (ctx a).target > 0) → s' = s) ∧
        threads zs = pending ctx (threads xs) active := by
  rcases hqueued with ⟨a, n, rfl, ha, hn, rfl⟩ | ⟨hno, rfl⟩
  · obtain ⟨s', hs', hrepr⟩ := (LinkedList.listAppend_spec h a malloc).2 n hn
    refine ⟨s', ?_, hrepr, fun hno => absurd ha (hno a rfl), ?_⟩
    · rw [appendActive, if_pos ha, hs']
      rfl
    · simp [threads, pending, ha]
  · cases active with
    | none => exact ⟨s, rfl, h, fun _ => rfl, by simp [threads, pending]⟩
    | some a =>
      have ha := hno a rfl
      exact ⟨s, if_neg ha, h, fun _ => rfl, by simp [threads, pending, ha]⟩

theorem split_of_getElem? (hx : zs[i]? = some x) : zs = zs.take i ++ x :: zs.drop (i + 1) := by
  obtain ⟨hlt, rfl⟩ := List.getElem?_eq_some_iff.1 hx
  rw [List.getElem_cons_drop, List.take_append_drop]

/-- `list_remove` takes out the node at a place of the list. -/
theorem listRemove_node (h : Repr s zs) (hfuel : zs.length < fuel) (hx : zs[i]? = some x) :
    ∃ s', listRemove fuel s (some x.1) = some (s', 0) ∧ Repr s' (zs.eraseIdx i) := by
  have hsplit := split_of_getElem? hx
  have herase : (zs.eraseP fun z => some z.1 = some x.1) = zs.eraseIdx i := by
    have hnodup := h.nodup
    rw [List.eraseIdx_eq_take_drop_succ]
    generalize zs.take i = u at hsplit
    generalize zs.drop (i + 1) = v at hsplit
    subst hsplit
    rw [nodes, List.map_append, List.nodup_append] at hnodup
    rw [List.eraseP_append_right, List.eraseP_cons_of_pos (by simp)]
    intro z hz heq
    have hne := hnodup.2.2 z.1 (List.mem_map_of_mem hz) x.1 (by simp)
    exact hne (by simpa using heq)
  rcases LinkedList.listRemove_spec h hfuel (some x.1) with ⟨hno, -⟩ | ⟨s', -, hret, hrepr⟩
  · exact absurd rfl (hno x.1 (List.mem_map_of_mem (List.mem_of_getElem? hx)))
  · exact ⟨s', hret, herase ▸ hrepr⟩

/-! ## The algorithms -/

/-- A choice among the nodes that follows a choice among the threads. -/
def Follows (choose : Store ℕ → Option (Option ℕ)) (choose' : ℕ → List ℕ → ℕ) (fuel : ℕ) : Prop :=
  ∀ (s : Store ℕ) (x : ℕ × ℕ) (xs : List (ℕ × ℕ)), Repr s (x :: xs) → (x :: xs).length < fuel →
    ∃ y, (x :: xs)[choose' x.2 (threads xs)]? = some y ∧ choose s = some (some y.1)

/-- The node at the place that is chosen is taken out, and its thread is returned. -/
theorem reschedule_spec {choose : Store ℕ → Option (Option ℕ)} {choose' : ℕ → List ℕ → ℕ}
    (hfollows : Follows choose choose' fuel) (h : Repr s xs)
    (hqueued : Queued ctx malloc s xs active zs) (hfuel : zs.length < fuel) :
    (zs = [] ∧ reschedule fuel choose ctx malloc s active = some (s, none)) ∨
      ∃ z rest x s', zs = z :: rest ∧ zs[choose' z.2 (threads rest)]? = some x ∧
        reschedule fuel choose ctx malloc s active = some (s', some x.2) ∧
          Repr s' (zs.eraseIdx (choose' z.2 (threads rest))) := by
  obtain ⟨s₁, happend, hrepr, hsame, -⟩ := appendActive_spec h hqueued
  cases zs with
  | nil =>
    refine .inl ⟨rfl, ?_⟩
    have hno : ∀ a, active = some a → ¬ (ctx a).target > 0 := by
      rcases hqueued with ⟨a, n, -, -, -, hzs⟩ | ⟨hno, -⟩
      · simp at hzs
      · exact hno
    obtain rfl := hsame hno
    rw [reschedule, happend]
    exact if_pos (hrepr.first_eq_none_iff.2 rfl)
  | cons z rest =>
    obtain ⟨x, hx, hchoose⟩ := hfollows s₁ z rest hrepr hfuel
    obtain ⟨next, hc⟩ := cell_of_getElem? hrepr hx
    obtain ⟨s', hremove, hrepr'⟩ := listRemove_node hrepr hfuel hx
    refine .inr ⟨z, rest, x, s', rfl, hx, ?_, hrepr'⟩
    have hne : s₁.first ≠ none := by simp [hrepr.first_eq_none_iff]
    rw [reschedule, happend]
    show (if s₁.first = none then _ else _) = _
    rw [if_neg hne, hchoose]
    show (s₁.cells x.1).bind _ = _
    rw [hc]
    show (listRemove fuel s₁ (some x.1)).bind _ = _
    rw [hremove]
    rfl

/-- The choices of an algorithm, among the nodes and among the threads. -/
theorem exists_choice (alg : Algo) (ctx : ℕ → Threadcontext) (fuel : ℕ) :
    ∃ choose choose', run alg fuel ctx = reschedule fuel choose ctx ∧
      alg.run ctx = Sched.reschedule choose' ctx ∧ Follows choose choose' fuel ∧
        ∀ first rest, ∃ a, FirstMin ctx alg.key (first :: rest) (choose' first rest, a) := by
  cases alg with
  | rr =>
    refine ⟨_, _, rfl, rfl, fun s x xs h _ => ⟨x, rfl, congrArg some h.chain.1⟩, fun first rest => ?_⟩
    exact ⟨first, firstMin_head ctx first rest⟩
  | prr =>
    refine ⟨_, _, rfl, rfl, fun s x xs h hfuel => listGetMax_spec h hfuel, ?_⟩
    rw [cmpPrio_eq]
    exact firstMin_listGetMax ctx Threadcontext.prio
  | srtn =>
    refine ⟨_, _, rfl, rfl, fun s x xs h hfuel => listGetMax_spec h hfuel, ?_⟩
    rw [cmpTarget_eq]
    exact firstMin_listGetMax ctx Threadcontext.target

/-- The algorithms on the heap do what they do on sequences of threads. -/
theorem run_refines (alg : Algo) (h : Repr s xs) (hqueued : Queued ctx malloc s xs active zs)
    (hfuel : zs.length < fuel) :
    ∃ s' zs', run alg fuel ctx malloc s active = some (s', (alg.run ctx (threads xs) active).2) ∧
      Repr s' zs' ∧ threads zs' = (alg.run ctx (threads xs) active).1 := by
  obtain ⟨choose, choose', hrun, hrun', hfollows, -⟩ := exists_choice alg ctx fuel
  obtain ⟨s₁, -, -, -, hpending⟩ := appendActive_spec h hqueued
  rw [hrun, hrun', reschedule_eq, ← hpending]
  rcases reschedule_spec hfollows h hqueued hfuel with ⟨rfl, hnone⟩ |
    ⟨z, rest, x, s', rfl, hx, hsome, hrepr⟩
  · have hxs : xs = [] := by
      rcases hqueued with ⟨a, n, -, -, -, hzs⟩ | ⟨-, hzs⟩
      · simp at hzs
      · exact hzs.symm
    exact ⟨s, [], hnone, hxs ▸ h, rfl⟩
  · refine ⟨s', _, ?_, hrepr, ?_⟩
    · have hpick : (pick choose' (threads (z :: rest))).2 = some x.2 := by
        show (threads (z :: rest))[choose' z.2 (threads rest)]? = some x.2
        rw [List.getElem?_map, hx]
        rfl
      rw [hpick]
      exact hsome
    · exact (List.eraseIdx_map ..).symm

/-! ## The thread that is taken -/

/-- The first one of the smallest nodes is the one that the algorithm takes. -/
theorem picks_of_key {u v : List (ℕ × ℕ)}
    (hu : ∀ y ∈ u, alg.key (ctx x.2) < alg.key (ctx y.2))
    (hv : ∀ y ∈ v, alg.key (ctx x.2) ≤ alg.key (ctx y.2)) : Picks ctx u x v alg := by
  cases alg with
  | rr => exact List.eq_nil_iff_forall_not_mem.2 fun y hy => lt_irrefl _ (hu y hy)
  | prr => exact ⟨hu, hv⟩
  | srtn => exact ⟨hu, hv⟩

/-- The queue is empty, and nothing is changed; or a thread is taken out of it. -/
theorem run_picks (alg : Algo) (h : Repr s xs) (hqueued : Queued ctx malloc s xs active zs)
    (hfuel : zs.length < fuel) :
    (zs = [] ∧ run alg fuel ctx malloc s active = some (s, none)) ∨
      ∃ u x v s', zs = u ++ x :: v ∧ Picks ctx u x v alg ∧
        run alg fuel ctx malloc s active = some (s', some x.2) ∧ Repr s' (u ++ v) := by
  obtain ⟨choose, choose', hrun, -, hfollows, hmin⟩ := exists_choice alg ctx fuel
  rw [hrun]
  rcases reschedule_spec hfollows h hqueued hfuel with hnone |
    ⟨z, rest, x, s', rfl, hx, hsome, hrepr⟩
  · exact .inl hnone
  · obtain ⟨a, hmin⟩ := hmin z.2 (threads rest)
    generalize choose' z.2 (threads rest) = i at hmin hx hrepr
    obtain rfl : a = x.2 := by
      have hget := hmin.getElem?
      rw [show z.2 :: threads rest = threads (z :: rest) from rfl, List.getElem?_map, hx] at hget
      exact (Option.some.inj hget).symm
    have hu : ∀ y ∈ (z :: rest).take i, alg.key (ctx x.2) < alg.key (ctx y.2) := by
      intro y hy
      refine hmin.lt y.2 ?_
      rw [show z.2 :: threads rest = threads (z :: rest) from rfl, ← List.map_take]
      exact List.mem_map_of_mem hy
    have hv : ∀ y ∈ (z :: rest).drop (i + 1), alg.key (ctx x.2) ≤ alg.key (ctx y.2) := fun y hy =>
      hmin.le y.2 (List.mem_map_of_mem (f := Prod.snd) (List.mem_of_mem_drop hy))
    refine .inr ⟨_, x, _, s', split_of_getElem? hx, picks_of_key hu hv, hsome, ?_⟩
    rwa [← List.eraseIdx_eq_take_drop_succ]

/-- A list of the threads 0 and 1. -/
def twoNodes : Store ℕ where
  cells n := if n = 0 then some ⟨some 1, 0⟩ else if n = 1 then some ⟨none, 1⟩ else none
  first := some 0
  last := some 1
  size := 2

/-- The active thread is as good as the second one of the list. -/
theorem run_picks_twoNodes :
    let ctx := context [⟨3, 0, 5⟩, ⟨1, 0, 5⟩, ⟨1, 0, 5⟩]
    ∃ u x v s', [(0, 0), (1, 1), (2, 2)] = u ++ x :: v ∧ Picks ctx u x v .prr ∧
      run .prr 4 ctx (.firstFree 8) twoNodes (some 2) = some (s', some x.2) ∧ Repr s' (u ++ v) := by
  have hrepr : Repr twoNodes [(0, 0), (1, 1)] :=
    ⟨⟨rfl, some 1, rfl, rfl, none, rfl, rfl⟩, by decide, rfl, rfl⟩
  have hqueued : Queued (context [⟨3, 0, 5⟩, ⟨1, 0, 5⟩, ⟨1, 0, 5⟩]) (.firstFree 8) twoNodes
      [(0, 0), (1, 1)] (some 2) [(0, 0), (1, 1), (2, 2)] :=
    .inl ⟨2, 2, rfl, by decide, rfl, rfl⟩
  exact (run_picks .prr hrepr hqueued (by decide)).resolve_left fun h => by cases h.1

end Sem3.Sched.ReadyQueue
