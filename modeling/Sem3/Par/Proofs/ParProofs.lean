import Sem3.Par.Spec

/-!
# Proofs: parallel maps

In each phase of the calling thread it is known which channels and threads there are (`Phase`). Until
it has returned, it can go on, or the thread whose result it waits for can.
-/

namespace Sem3.Par

universe u

open Rendezvous (Config Label step)

variable {γ δ : Type*} {f : γ → δ} {vs : List γ} {c c' : Config (Local γ δ)} {ws : List (Local γ δ)}
  {k m i : ℕ} {l : Label Empty}

/-! ## The other threads -/

/-- The threads for the first `m` elements: the first `k` of them have ended. -/
structure Workers (f : γ → δ) (vs : List γ) (k m : ℕ) (ws : List (Local γ δ)) : Prop where
  length : ws.length = m
  ended : ∀ i < k, i < m → ws[i]? = some .ended
  running : ∀ i v, k ≤ i → i < m → vs[i]? = some v →
    ws[i]? = some (.worker v i) ∨ ws[i]? = some (.sending i (f v))

/-- The states of a run. The thread of the caller is the first one, and the channel of an element has
the number of the element. -/
inductive Phase (f : γ → δ) (vs : List γ) : Config (Local γ δ) → Prop
  | prepare {k : ℕ} (hk : k ≤ vs.length) :
      Phase f vs ⟨[.prepare ((vs.drop k).map .ok) (vs.zipIdx.take k)], k⟩
  | create {k : ℕ} {ws : List (Local γ δ)} (hk : k ≤ vs.length) (hws : Workers f vs 0 k ws) :
      Phase f vs ⟨.create (vs.zipIdx.drop k) (List.range k) :: ws, vs.length⟩
  | collect {k : ℕ} {ws : List (Local γ δ)} (hk : k ≤ vs.length)
      (hws : Workers f vs k vs.length ws) :
      Phase f vs
        ⟨.collect ((List.range vs.length).drop k) ((vs.take k).map f) :: ws, vs.length⟩
  | returned {ws : List (Local γ δ)} (hws : Workers f vs vs.length vs.length ws) :
      Phase f vs ⟨.returned (vs.map f) :: ws, vs.length⟩

theorem phase_start (f : γ → δ) (vs : List γ) : Phase f vs (start (vs.map .ok)) := by
  have h : Phase f vs ⟨[.prepare ((vs.drop 0).map .ok) (vs.zipIdx.take 0)], 0⟩ :=
    .prepare (Nat.zero_le _)
  simpa [start] using h

/-- What the threads for the elements may be doing. -/
theorem Workers.cases (hws : Workers f vs k m ws) (hm : m ≤ vs.length) {s : Local γ δ}
    (hs : ws[i]? = some s) : s = .ended ∨
      ∃ v, k ≤ i ∧ vs[i]? = some v ∧ (s = .worker v i ∨ s = .sending i (f v)) := by
  obtain ⟨hi, -⟩ := List.getElem?_eq_some_iff.1 hs
  rw [hws.length] at hi
  rcases Nat.lt_or_ge i k with hik | hki
  · rw [hws.ended i hik hi] at hs
    exact .inl (Option.some.inj hs).symm
  · have hv : vs[i]? = some vs[i] := List.getElem?_eq_getElem (by omega)
    have hrun := hws.running i _ hki hi hv
    rw [hs, Option.some_inj, Option.some_inj] at hrun
    exact .inr ⟨_, hki, hv, hrun⟩

/-- A thread computes its result. -/
theorem Workers.compute (hws : Workers f vs k m ws) {v : γ} (hki : k ≤ i) (hv : vs[i]? = some v) :
    Workers f vs k m (ws.set i (.sending i (f v))) where
  length := by rw [List.length_set, hws.length]
  ended := by
    intro j hj hm
    rw [List.getElem?_set_ne (by omega)]
    exact hws.ended j hj hm
  running := by
    intro j u hj hm hu
    by_cases hij : i = j
    · subst hij
      obtain rfl := Option.some.inj (hv.symm.trans hu)
      rw [List.getElem?_set_self (by rw [hws.length]; exact hm)]
      exact .inr rfl
    · rw [List.getElem?_set_ne hij]
      exact hws.running j u hj hm hu

/-- The next thread sends its result, and ends. -/
theorem Workers.finish (hws : Workers f vs k m ws) : Workers f vs (k + 1) m (ws.set k .ended) where
  length := by rw [List.length_set, hws.length]
  ended := by
    intro j hj hm
    by_cases hkj : k = j
    · subst hkj
      rw [List.getElem?_set_self (by rw [hws.length]; exact hm)]
    · rw [List.getElem?_set_ne hkj]
      exact hws.ended j (by omega) hm
  running := by
    intro j u hj hm hu
    rw [List.getElem?_set_ne (by omega)]
    exact hws.running j u (by omega) hm hu

/-- One more thread is made. -/
theorem Workers.fork (hws : Workers f vs 0 m ws) {v : γ} (hv : vs[m]? = some v) :
    Workers f vs 0 (m + 1) (ws ++ [.worker v m]) where
  length := by rw [List.length_append, hws.length, List.length_singleton]
  ended := fun j hj => absurd hj (Nat.not_lt_zero j)
  running := by
    intro j u hj hm hu
    rcases Nat.lt_succ_iff_lt_or_eq.1 hm with hlt | rfl
    · rw [List.getElem?_append_left (by rw [hws.length]; exact hlt)]
      exact hws.running j u hj hlt hu
    · obtain rfl := Option.some.inj (hv.symm.trans hu)
      rw [List.getElem?_append_right (by rw [hws.length]), hws.length, Nat.sub_self]
      exact .inl rfl

/-! ## The phases -/

/-- What the steps of the other threads do: one of them computes its result. -/
theorem Workers.act (hws : Workers f vs k m ws) (hm : m ≤ vs.length) {s : Local γ δ} {n : ℕ}
    (h : step (act f) ⟨s :: ws, n⟩ (.act (i + 1)) = some c') :
    ∃ ws', c' = ⟨s :: ws', n⟩ ∧ Workers f vs k m ws' := by
  obtain ⟨r, hr, -⟩ := Rendezvous.step_act h
  obtain rfl | ⟨v, hki, hv, rfl | rfl⟩ := hws.cases hm hr
  · rw [Rendezvous.step_act_of_halt (P := Par.act f) hr rfl] at h
    cases h
  · rw [Rendezvous.step_tau (P := Par.act f) hr rfl, Option.some_inj] at h
    subst h
    exact ⟨_, rfl, hws.compute hki hv⟩
  · rw [Rendezvous.step_act_of_send (P := Par.act f) hr rfl] at h
    cases h

/-- Messages go from one of the other threads to the caller. -/
theorem Workers.comm (hws : Workers f vs k m ws) (hm : m ≤ vs.length) {s : Local γ δ} {n j : ℕ}
    (hs : ∀ ch y s', Par.act f s ≠ .send ch y s')
    (h : step (Par.act f) ⟨s :: ws, n⟩ (.comm i j) = some c') :
    ∃ i' v k', i = i' + 1 ∧ k ≤ i' ∧ i' < m ∧ vs[i']? = some v ∧ Par.act f s = .recv i' k' ∧
      c' = ⟨k' (f v) :: ws.set i' .ended, n⟩ := by
  obtain ⟨r, q, ch, y, r', k', ⟨hr, hsend⟩, ⟨hq, hrecv⟩, rfl⟩ := Rendezvous.step_comm h
  rcases i with _ | i
  · obtain rfl := Option.some.inj hr
    exact absurd hsend (hs _ _ _)
  · obtain rfl | ⟨v, hki, hv, rfl | rfl⟩ := hws.cases hm hr
    · cases hsend
    · cases hsend
    · cases hsend
      -- the channel has the number of the thread
      have hch : ch < m := by
        obtain ⟨hch, -⟩ := List.getElem?_eq_some_iff.1 hr
        simpa [hws.length] using hch
      rcases j with _ | j
      · obtain rfl := Option.some.inj hq
        exact ⟨ch, v, k', rfl, hki, hch, hv, hrecv, rfl⟩
      · obtain rfl | ⟨u, -, -, rfl | rfl⟩ := hws.cases hm hq <;> cases hrecv

/-! ### The thread of the caller -/

/-- The channel `k` is made for the element `k`. -/
theorem act_prepare (hk : k < vs.length) :
    Par.act f (.prepare ((vs.drop k).map .ok) (vs.zipIdx.take k)) =
      .fresh fun ch => .prepare ((vs.drop (k + 1)).map .ok) (vs.zipIdx.take k ++ [(vs[k], ch)]) := by
  rw [List.drop_eq_getElem_cons hk]
  rfl

/-- The thread for the element `k` gets the channel `k`. -/
theorem act_create (hk : k < vs.length) (done : List ℕ) :
    Par.act f (.create (vs.zipIdx.drop k) done) =
      .fork (.worker vs[k] k) (.create (vs.zipIdx.drop (k + 1)) (done ++ [k])) := by
  rw [List.drop_eq_getElem_cons (by simpa using hk)]
  simp [Par.act]

/-- The result `k` is received on the channel `k`. -/
theorem act_collect (hk : k < vs.length) (done : List δ) :
    Par.act f (.collect ((List.range vs.length).drop k) done) =
      .recv k fun y => .collect ((List.range vs.length).drop (k + 1)) (done ++ [y]) := by
  rw [List.drop_eq_getElem_cons (by simpa using hk)]
  simp [Par.act]

/-- When all channels are made, the threads are made. -/
theorem act_prepare_end :
    Par.act f (.prepare ((vs.drop vs.length).map .ok) (vs.zipIdx.take vs.length)) =
      .tau (.create vs.zipIdx []) := by
  rw [List.drop_length, List.take_of_length_le (by simp)]
  rfl

/-- When all threads are made, the results are received. -/
theorem act_create_end (done : List ℕ) :
    Par.act f (.create (vs.zipIdx.drop vs.length) done) = .tau (.collect done []) := by
  rw [List.drop_of_length_le (by simp)]
  rfl

/-- When all results are received, they are returned. -/
theorem act_collect_end (done : List δ) :
    Par.act f (.collect ((List.range vs.length).drop vs.length) done) = .tau (.returned done) := by
  rw [List.drop_of_length_le (by simp)]
  rfl

theorem take_zipIdx_succ (hk : k < vs.length) :
    vs.zipIdx.take k ++ [(vs[k], k)] = vs.zipIdx.take (k + 1) := by
  rw [List.take_add_one, List.getElem?_eq_getElem (by simpa using hk)]
  simp

theorem workers_nil (f : γ → δ) (vs : List γ) : Workers f vs 0 0 [] where
  length := rfl
  ended := fun i hi => absurd hi (Nat.not_lt_zero i)
  running := fun i _ _ hi => absurd hi (Nat.not_lt_zero i)

theorem Phase.step_prepare (hk : k ≤ vs.length)
    (h : step (Par.act f) ⟨[.prepare ((vs.drop k).map .ok) (vs.zipIdx.take k)], k⟩ l = some c') :
    Phase f vs c' := by
  have hnot : ∀ ch y s', Par.act f (.prepare ((vs.drop k).map .ok) (vs.zipIdx.take k)) ≠
      .send ch y s' := by
    intro ch y s'
    rcases hk.lt_or_eq with hlt | rfl
    · rw [act_prepare hlt]
      rintro ⟨⟩
    · rw [act_prepare_end]
      rintro ⟨⟩
  match l with
  | .comm i j =>
    obtain ⟨i', -, -, -, -, hi, -⟩ := (workers_nil f vs).comm (Nat.zero_le _) hnot h
    exact absurd hi (Nat.not_lt_zero i')
  | .act (i + 1) =>
    obtain ⟨ws, rfl, hws⟩ := (workers_nil f vs).act (Nat.zero_le _) h
    obtain rfl := List.length_eq_zero_iff.1 hws.length
    exact .prepare hk
  | .act 0 =>
    rcases hk.lt_or_eq with hlt | rfl
    · rw [Rendezvous.step_fresh rfl (act_prepare hlt), Option.some_inj] at h
      subst h
      rw [take_zipIdx_succ hlt]
      exact .prepare hlt
    · rw [Rendezvous.step_tau rfl act_prepare_end, Option.some_inj] at h
      subst h
      exact .create (k := 0) (Nat.zero_le _) (workers_nil f vs)

theorem Phase.step_create (hk : k ≤ vs.length) (hws : Workers f vs 0 k ws)
    (h : step (Par.act f) ⟨.create (vs.zipIdx.drop k) (List.range k) :: ws, vs.length⟩ l = some c') :
    Phase f vs c' := by
  have hnot : (∀ ch y s', Par.act f (.create (vs.zipIdx.drop k) (List.range k)) ≠ .send ch y s') ∧
      ∀ ch k', Par.act f (.create (vs.zipIdx.drop k) (List.range k)) ≠ .recv ch k' := by
    rcases hk.lt_or_eq with hlt | rfl
    · rw [act_create hlt]
      exact ⟨fun _ _ _ => by rintro ⟨⟩, fun _ _ => by rintro ⟨⟩⟩
    · rw [act_create_end]
      exact ⟨fun _ _ _ => by rintro ⟨⟩, fun _ _ => by rintro ⟨⟩⟩
  match l with
  | .comm i j =>
    obtain ⟨i', -, k', -, -, -, -, hrecv, -⟩ := hws.comm hk hnot.1 h
    exact absurd hrecv (hnot.2 i' k')
  | .act (i + 1) =>
    obtain ⟨ws', rfl, hws'⟩ := hws.act hk h
    exact .create hk hws'
  | .act 0 =>
    rcases hk.lt_or_eq with hlt | rfl
    · rw [Rendezvous.step_fork rfl (act_create hlt _), Option.some_inj] at h
      subst h
      rw [← List.range_succ]
      exact .create hlt (hws.fork (List.getElem?_eq_getElem hlt))
    · rw [Rendezvous.step_tau rfl (act_create_end _), Option.some_inj] at h
      subst h
      exact .collect (k := 0) (Nat.zero_le _) hws

theorem Phase.step_collect (hk : k ≤ vs.length) (hws : Workers f vs k vs.length ws)
    (h : step (Par.act f)
      ⟨.collect ((List.range vs.length).drop k) ((vs.take k).map f) :: ws, vs.length⟩ l = some c') :
    Phase f vs c' := by
  match l with
  | .comm i j =>
    have hnot : ∀ ch y s',
        Par.act f (.collect ((List.range vs.length).drop k) ((vs.take k).map f)) ≠ .send ch y s' := by
      intro ch y s'
      rcases hk.lt_or_eq with hlt | rfl
      · rw [act_collect hlt]
        rintro ⟨⟩
      · rw [act_collect_end]
        rintro ⟨⟩
    obtain ⟨i', v, k', -, hki, hi, hv, hrecv, rfl⟩ := hws.comm le_rfl hnot h
    -- the thread whose turn it is has sent
    rw [act_collect (hki.trans_lt hi)] at hrecv
    cases hrecv
    have htake : (vs.take k).map f ++ [f v] = (vs.take (k + 1)).map f := by
      rw [List.take_add_one, hv]
      simp
    have hnext := Phase.collect hi hws.finish
    rwa [← htake] at hnext
  | .act (i + 1) =>
    obtain ⟨ws', rfl, hws'⟩ := hws.act le_rfl h
    exact .collect hk hws'
  | .act 0 =>
    rcases hk.lt_or_eq with hlt | rfl
    · rw [Rendezvous.step_act_of_recv rfl (act_collect hlt _)] at h
      cases h
    · rw [Rendezvous.step_tau rfl (act_collect_end _), Option.some_inj] at h
      subst h
      rw [List.take_length]
      exact .returned hws

theorem Phase.step_returned (hws : Workers f vs vs.length vs.length ws)
    (h : step (Par.act f) ⟨.returned (vs.map f) :: ws, vs.length⟩ l = some c') : Phase f vs c' := by
  match l with
  | .comm i j =>
    obtain ⟨i', -, -, -, hki, hi, -⟩ := hws.comm le_rfl (fun _ _ _ => by rintro ⟨⟩) h
    omega
  | .act (i + 1) =>
    obtain ⟨ws', rfl, hws'⟩ := hws.act le_rfl h
    exact .returned hws'
  | .act 0 =>
    rw [Rendezvous.step_act_of_halt rfl rfl] at h
    cases h

theorem Phase.step (hc : Phase f vs c) (h : Rendezvous.step (Par.act f) c l = some c') :
    Phase f vs c' := by
  cases hc with
  | prepare hk => exact step_prepare hk h
  | create hk hws => exact step_create hk hws h
  | collect hk hws => exact step_collect hk hws h
  | returned hws => exact step_returned hws h

/-- Every state of a run is in one of the phases. -/
theorem phase_of_run {steps : List (Config (Local γ δ) × Label Empty)}
    (h : Run (Rendezvous.step (Par.act f)) (start (vs.map .ok)) steps c) : Phase f vs c :=
  h.always (phase_start f vs) fun _ _ _ hc hs => hc.step hs

/-! ## Progress -/

/-- As long as the caller has not returned, some step is possible. -/
theorem Phase.progress (hc : Phase f vs c) : c.threads[0]? = some (.returned (vs.map f)) ∨
    ∃ l c', Rendezvous.step (Par.act f) c l = some c' := by
  cases hc with
  | @prepare k hk =>
    rcases hk.lt_or_eq with hlt | rfl
    · exact .inr ⟨.act 0, _, Rendezvous.step_fresh rfl (act_prepare hlt)⟩
    · exact .inr ⟨.act 0, _, Rendezvous.step_tau rfl act_prepare_end⟩
  | @create k ws hk hws =>
    rcases hk.lt_or_eq with hlt | rfl
    · exact .inr ⟨.act 0, _, Rendezvous.step_fork rfl (act_create hlt _)⟩
    · exact .inr ⟨.act 0, _, Rendezvous.step_tau rfl (act_create_end _)⟩
  | @collect k ws hk hws =>
    rcases hk.lt_or_eq with hlt | rfl
    · -- the thread whose turn it is computes or sends
      rcases hws.running k _ le_rfl hlt (List.getElem?_eq_getElem hlt) with hk' | hk'
      · exact .inr ⟨.act (k + 1), _, Rendezvous.step_tau hk' rfl⟩
      · exact .inr ⟨.comm (k + 1) 0, _, Rendezvous.step_send hk' rfl rfl (act_collect hlt _)⟩
    · exact .inr ⟨.act 0, _, Rendezvous.step_tau rfl (act_collect_end _)⟩
  | returned hws => exact .inl rfl

/-- A bound on the steps that a thread, and those that it makes, have left. -/
def Local.work : Local γ δ → ℕ
  | .prepare todo done => 6 * todo.length + 5 * done.length + 3
  | .create todo done => 5 * todo.length + done.length + 2
  | .collect todo _ => todo.length + 1
  | .worker _ _ => 3
  | .sending _ _ => 2
  | _ => 0

theorem decreases_work (f : γ → δ) : Rendezvous.Decreases (Par.act f) Local.work where
  tau := by
    intro s s' h
    unfold Par.act at h
    split at h <;> cases h <;> simp [Local.work]
  fresh := by
    intro s k ch h
    unfold Par.act at h
    split at h <;> cases h
    simp only [Local.work, List.length_cons, List.length_append, List.length_nil]
    omega
  fork := by
    intro s child s' h
    unfold Par.act at h
    split at h <;> cases h
    simp only [Local.work, List.length_cons, List.length_append, List.length_nil]
    omega
  comm := by
    intro s r ch m s' k hs hr
    have hsend : s'.work < s.work := by
      unfold Par.act at hs
      split at hs <;> cases hs
      simp [Local.work]
    have hrecv : (k m).work < r.work := by
      unfold Par.act at hr
      split at hr <;> cases hr
      simp [Local.work]
    omega

theorem computes_start (f : γ → δ) (vs : List γ) : Computes f (start (vs.map .ok)) (vs.map f) := by
  refine ⟨((start (γ := γ) (δ := δ) (vs.map .ok)).threads.map Local.work).sum, fun steps c h => ?_⟩
  have hc := phase_of_run h
  refine ⟨?_, fun r' hr' => ?_, hc.progress⟩
  · have hlen := h.length_add_le (C := fun _ _ => True) (fun c => (c.threads.map Local.work).sum)
      (fun c l c' _ hs => (decreases_work f).sum_lt (fun _ x => x.elim) hs) fun _ _ => trivial
    exact (Nat.le_add_right _ _).trans hlen
  · cases hc with
    | prepare => cases hr'
    | create => cases hr'
    | collect => cases hr'
    | returned =>
      cases hr'
      rfl

/-! ## The lists -/

/-- Lists of the same length are taken together. -/
theorem parBinary_eq {α β : Type u} {δ : Type*} {a : List α} {b : List β}
    (h : a.length = b.length) : parBinary (δ := δ) a b = start ((a.zip b).map .ok) := by
  unfold parBinary
  congr 1
  apply List.ext_getElem
  · simp [h]
  · intro n hn hn'
    have hna : n < a.length := by simpa using hn
    have hnb : n < b.length := h ▸ hna
    simp only [List.getElem_map, List.getElem_range, List.getElem_zip, Ocaml.nth_of_lt hna,
      Ocaml.nth_of_lt hnb]
    rfl

/-- Both parallel maps compute the map, in every interleaving of the threads. -/
theorem computes_map {α β δ : Type u} (f : α → δ) (g : α → β → δ) (a : List α) (b : List β)
    (h : a.length = b.length) :
    Computes f (parUnary a) (a.map f) ∧
      Computes (Function.uncurry g) (parBinary a b) (List.zipWith g a b) := by
  refine ⟨computes_start f a, ?_⟩
  rw [parBinary_eq h, ← List.map_uncurry_zip_eq_zipWith]
  exact computes_start (Function.uncurry g) (a.zip b)

/-- Lists of three elements. -/
theorem computes_map_three :
    Computes (· + 1) (parUnary [8, 1, 1]) ([8, 1, 1].map (· + 1)) ∧
      Computes (Function.uncurry (· * ·)) (parBinary [8, 1, 1] [5, 6, 2])
        (List.zipWith (· * ·) [8, 1, 1] [5, 6, 2]) :=
  computes_map (· + 1) (· * ·) [8, 1, 1] [5, 6, 2] rfl

end Sem3.Par
