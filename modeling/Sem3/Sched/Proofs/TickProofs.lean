import Sem3.Sched.Spec
import Mathlib.Data.List.Perm.Basic
import Mathlib.Logic.Function.Basic

/-!
# Proofs: one pass of the simulation

`schedule_cases` says once what the scheduling part of a pass can do, and the `tick` lemmas what a
pass does to each variable. The three algorithms are not distinguished: they only differ in which
thread of the ready list they choose.
-/

namespace Sem3.Sched

variable {alg : Algo} {t q : ℤ} {s : Sim} {ctx : ℕ → Threadcontext} {ready : List ℕ}
  {active : Option ℕ} {choose : ℕ → List ℕ → ℕ}

/-! ## The choice of a thread -/

theorem getMaxLoop_lt (ctx : ℕ → Threadcontext) (cmp : Threadcontext → Threadcontext → ℤ)
    (l : List ℕ) : ∀ i (highest : ℕ × ℕ) n, highest.1 < n → i + l.length ≤ n →
      (getMaxLoop ctx cmp l i highest).1 < n := by
  induction l with
  | nil => intro i highest n h _; exact h
  | cons next rest ih =>
    intro i highest n h hn
    rw [List.length_cons] at hn
    refine ih (i + 1) _ n ?_ (by omega)
    split_ifs
    · show i < n
      omega
    · exact h

theorem listGetMax_lt (ctx : ℕ → Threadcontext) (cmp : Threadcontext → Threadcontext → ℤ)
    (first : ℕ) (rest : List ℕ) : listGetMax ctx cmp first rest < (first :: rest).length :=
  getMaxLoop_lt ctx cmp (first :: rest) 0 (0, first) _ (by simp) (by simp)

/-- The ready list that the algorithms choose from. -/
def pending (ctx : ℕ → Threadcontext) (ready : List ℕ) (active : Option ℕ) : List ℕ :=
  ready ++ active.toList.filter fun a => (ctx a).target > 0

/-- The choice from a ready list. -/
def pick (choose : ℕ → List ℕ → ℕ) : List ℕ → List ℕ × Option ℕ
  | [] => ([], none)
  | first :: rest =>
    ((first :: rest).eraseIdx (choose first rest), (first :: rest)[choose first rest]?)

/-- An algorithm picks one of the pending threads. -/
theorem reschedule_eq :
    reschedule choose ctx ready active = pick choose (pending ctx ready active) := by
  cases active with
  | none => exact congrArg (pick choose) (List.append_nil ready).symm
  | some a =>
    by_cases h : (ctx a).target > 0
    · have hpending : pending ctx ready (some a) = ready ++ [a] := by simp [pending, h]
      rw [hpending]
      simp only [reschedule, h, if_true]
      rfl
    · have hpending : pending ctx ready (some a) = ready := by simp [pending, h]
      rw [hpending]
      simp only [reschedule, h, if_false]
      rfl

/-- Nobody is pending, or one of them becomes active and the others are ready. -/
theorem reschedule_cases (hchoose : ∀ first rest, choose first rest < (first :: rest).length) :
    (pending ctx ready active = [] ∧ reschedule choose ctx ready active = ([], none)) ∨
      ∃ a, (reschedule choose ctx ready active).2 = some a ∧
        (pending ctx ready active).Perm (a :: (reschedule choose ctx ready active).1) := by
  rw [reschedule_eq]
  cases pending ctx ready active with
  | nil => exact Or.inl ⟨rfl, rfl⟩
  | cons first rest =>
    have hlt := hchoose first rest
    refine Or.inr ⟨(first :: rest)[choose first rest], List.getElem?_eq_getElem hlt, ?_⟩
    exact (List.getElem_cons_eraseIdx_perm hlt).symm

theorem run_cases (alg : Algo) (ctx : ℕ → Threadcontext) (ready : List ℕ) (active : Option ℕ) :
    (pending ctx ready active = [] ∧ alg.run ctx ready active = ([], none)) ∨
      ∃ a, (alg.run ctx ready active).2 = some a ∧
        (pending ctx ready active).Perm (a :: (alg.run ctx ready active).1) := by
  cases alg with
  | rr => exact reschedule_cases fun _ _ => by simp
  | prr => exact reschedule_cases (listGetMax_lt ctx cmpPrio)
  | srtn => exact reschedule_cases (listGetMax_lt ctx cmpTarget)

/-- The state after the scheduling part of a pass. -/
def Sim.scheduled (alg : Algo) (q : ℤ) (s : Sim) : Sim := s.arrive.schedule alg q

@[simp] theorem scheduled_ctx : (s.scheduled alg q).ctx = s.ctx := by
  unfold Sim.scheduled Sim.schedule
  split_ifs <;> rfl

@[simp] theorem scheduled_list : (s.scheduled alg q).list = s.arrive.list := by
  unfold Sim.scheduled Sim.schedule
  split_ifs <;> rfl

@[simp] theorem scheduled_millis : (s.scheduled alg q).millis = s.millis := by
  unfold Sim.scheduled Sim.schedule
  split_ifs <;> rfl

@[simp] theorem scheduled_rows : (s.scheduled alg q).rows = s.rows := by
  unfold Sim.scheduled Sim.schedule
  split_ifs <;> rfl

/-- The active thread goes on with its time slot; or the slot is over, and there is no thread to
choose; or the slot is over, and a thread is chosen. -/
theorem schedule_cases (alg : Algo) (q : ℤ) (s : Sim) :
    (s.lastQ + q ≠ s.millis ∧ s.active ≠ none ∧ (s.scheduled alg q).ready = s.arrive.ready ∧
        (s.scheduled alg q).active = s.active ∧ (s.scheduled alg q).lastQ = s.lastQ) ∨
      ((s.lastQ + q = s.millis ∨ s.active = none) ∧ (s.scheduled alg q).lastQ = s.millis ∧
        ((pending s.ctx s.arrive.ready s.active = [] ∧ (s.scheduled alg q).ready = [] ∧
            (s.scheduled alg q).active = none) ∨
          ∃ a, (s.scheduled alg q).active = some a ∧
            (pending s.ctx s.arrive.ready s.active).Perm (a :: (s.scheduled alg q).ready))) := by
  unfold Sim.scheduled Sim.schedule
  by_cases h : s.arrive.lastQ + q = s.arrive.millis ∨ s.arrive.active = none
  · rw [if_pos h]
    refine Or.inr ⟨h, rfl, ?_⟩
    rcases run_cases alg s.ctx s.arrive.ready s.active with ⟨hp, hrun⟩ | hrun
    · refine Or.inl ⟨hp, ?_⟩
      have hrun' : alg.run s.arrive.ctx s.arrive.ready s.arrive.active = ([], none) := hrun
      simp only [hrun', and_self]
    · exact Or.inr hrun
  · rw [if_neg h]
    obtain ⟨h1, h2⟩ := not_or.1 h
    exact Or.inl ⟨h1, h2, rfl, rfl, rfl⟩

/-! ## What a pass does to the variables -/

theorem tick_eq : s.tick alg t q =
    { ctx := ((s.scheduled alg q).work t).ctx
      list := s.arrive.list
      ready := (s.scheduled alg q).ready
      active := (s.scheduled alg q).active
      millis := s.millis + t
      lastQ := (s.scheduled alg q).lastQ
      rows := s.rows ++
        match (s.scheduled alg q).active with
        | some a => [(s.millis, (s.ctx a).n)]
        | none =>
          if s.arrive.list ≠ [] ∨ (s.scheduled alg q).ready ≠ [] then [(s.millis, 0)] else [] } := by
  have hctx : (s.scheduled alg q).ctx = s.ctx := scheduled_ctx
  have hlist : (s.scheduled alg q).list = s.arrive.list := scheduled_list
  have hmillis : (s.scheduled alg q).millis = s.millis := scheduled_millis
  have hrows : (s.scheduled alg q).rows = s.rows := scheduled_rows
  unfold Sim.tick
  rw [← Sim.scheduled]
  generalize s.scheduled alg q = m at hctx hlist hmillis hrows
  unfold Sim.work Sim.printRow
  cases hm : m.active with
  | none =>
    by_cases h : m.list ≠ [] ∨ m.ready ≠ []
    · simp [hm, h, ← hmillis, ← hrows, ← hlist]
    · simp [hm, h, ← hmillis, ← hrows, ← hlist]
  | some a => simp [hctx, hlist, hmillis, hrows]

@[simp] theorem tick_list : (s.tick alg t q).list = s.arrive.list := by rw [tick_eq]

@[simp] theorem tick_ready : (s.tick alg t q).ready = (s.scheduled alg q).ready := by rw [tick_eq]

@[simp] theorem tick_active : (s.tick alg t q).active = (s.scheduled alg q).active := by
  rw [tick_eq]

@[simp] theorem tick_lastQ : (s.tick alg t q).lastQ = (s.scheduled alg q).lastQ := by rw [tick_eq]

@[simp] theorem tick_millis : (s.tick alg t q).millis = s.millis + t := by rw [tick_eq]

/-- A pass changes the thread that it executes only. -/
theorem tick_ctx (a : ℕ) : (s.tick alg t q).ctx a =
    if (s.tick alg t q).active = some a then { s.ctx a with target := (s.ctx a).target - t }
    else s.ctx a := by
  rw [tick_active, tick_eq]
  unfold Sim.work
  cases hm : (s.scheduled alg q).active with
  | none => simp
  | some b =>
    by_cases h : a = b
    · subst h
      simp
    · simp [h, Ne.symm h]

theorem tick_target (a : ℕ) : ((s.tick alg t q).ctx a).target =
    (s.ctx a).target - if (s.tick alg t q).active = some a then t else 0 := by
  rw [tick_ctx]
  split_ifs <;> simp

theorem tick_n (a : ℕ) : ((s.tick alg t q).ctx a).n = (s.ctx a).n := by
  rw [tick_ctx]
  split_ifs <;> rfl

theorem tick_start (a : ℕ) : ((s.tick alg t q).ctx a).start = (s.ctx a).start := by
  rw [tick_ctx]
  split_ifs <;> rfl

theorem tick_prio (a : ℕ) : ((s.tick alg t q).ctx a).prio = (s.ctx a).prio := by
  rw [tick_ctx]
  split_ifs <;> rfl

theorem tick_rows_some {a : ℕ} (h : (s.tick alg t q).active = some a) :
    (s.tick alg t q).rows = s.rows ++ [(s.millis, (s.ctx a).n)] := by
  rw [tick_active] at h
  rw [tick_eq, h]

/-- The row of a pass that executes none, if it is printed. -/
theorem tick_rows_none (h : (s.tick alg t q).active = none) :
    ∃ k, (s.tick alg t q).rows = s.rows ++ List.replicate k (s.millis, 0) := by
  rw [tick_active] at h
  rw [tick_eq, h]
  by_cases hne : s.arrive.list ≠ [] ∨ (s.scheduled alg q).ready ≠ []
  · exact ⟨1, by simp [hne]⟩
  · exact ⟨0, by simp [hne]⟩

/-! ## Where the threads go -/

/-- The threads that have arrived and were not dropped. -/
def Sim.running (s : Sim) : List ℕ := s.ready ++ s.active.toList

/-- A thread that arrives goes from one list to the other. -/
theorem arrive_perm : (s.arrive.list ++ s.arrive.ready).Perm (s.list ++ s.ready) := by
  have h := List.filter_append_perm (fun a => decide ((s.ctx a).start ≤ s.millis)) s.list
  simp only [← decide_not] at h
  rw [List.perm_iff_count]
  intro a
  have hcount := h.count_eq a
  simp only [Sim.arrive, List.count_append] at hcount ⊢
  omega

/-- A pass only drops the thread that was active, if it is finished. The other threads that run
stay, and those that arrive are added. -/
theorem tick_running (alg : Algo) (t q : ℤ) (s : Sim) :
    ∃ dropped : List ℕ, (∀ a ∈ dropped, s.active = some a ∧ (s.ctx a).target ≤ 0) ∧
      (s.arrive.ready ++ s.active.toList).Perm (dropped ++ (s.tick alg t q).running) := by
  unfold Sim.running
  rw [tick_ready, tick_active]
  rcases schedule_cases alg q s with ⟨-, -, hr, ha, -⟩ | ⟨-, -, hchoose⟩
  · exact ⟨[], by simp, by rw [hr, ha]; rfl⟩
  -- what does not go back to the ready list is dropped
  set keep := s.active.toList.filter fun a => (s.ctx a).target > 0 with hkeep
  set dropped := s.active.toList.filter fun a => ¬ (s.ctx a).target > 0 with hdropped
  have hsplit : (keep ++ dropped).Perm s.active.toList := by
    have h := List.filter_append_perm (fun a => decide ((s.ctx a).target > 0)) s.active.toList
    simpa only [← decide_not] using h
  refine ⟨dropped, fun a ha => ?_, ?_⟩
  · rw [hdropped, List.mem_filter] at ha
    exact ⟨by simpa using ha.1, by simpa using ha.2⟩
  · have hpending : (s.arrive.ready ++ s.active.toList).Perm
        (dropped ++ pending s.ctx s.arrive.ready s.active) := by
      rw [List.perm_iff_count]
      intro a
      have hcount := hsplit.count_eq a
      simp only [pending, ← hkeep, List.count_append] at hcount ⊢
      omega
    refine hpending.trans (List.Perm.append_left _ ?_)
    rcases hchoose with ⟨hp, hr, ha⟩ | ⟨a, ha, hp⟩
    · rw [hp, hr, ha]
      rfl
    · rw [ha]
      exact hp.trans (List.perm_append_singleton a _).symm

/-! ## The loop -/

theorem step_eq_again {s' : Sim} :
    step alg t q s = .again s' ↔ s.goesOn q ∧ s' = s.tick alg t q := by
  unfold step
  split_ifs with hgo
  · simp [hgo, eq_comm]
  · simp [hgo]

theorem step_eq_leave {s' : Sim} : step alg t q s = .leave s' ↔ ¬ s.goesOn q ∧ s' = s := by
  unfold step
  split_ifs with hgo
  · simp [hgo]
  · simp [hgo, eq_comm]

/-- What every pass keeps holds at the head of each. -/
theorem visits_invariant {I : Sim → Prop} {s₀ : Sim} (h : Loop.Visits (step alg t q) s₀ s)
    (h0 : I s₀) (htick : ∀ s, I s → s.goesOn q → I (s.tick alg t q)) : I s := by
  refine h.invariant h0 fun a b hI hab => ?_
  obtain ⟨hgo, rfl⟩ := step_eq_again.1 hab
  exact htick a hI hgo

end Sem3.Sched
