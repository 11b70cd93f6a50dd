import Sem3.Sched.Proofs.TickProofs
import Mathlib.Data.List.Nodup
import Mathlib.Tactic.Ring

/-!
# Proofs: no thread is lost

Every thread is in one of the lists or active, once, until it is dropped, which happens only when it
is finished. What it has worked is what was printed of it.
-/

namespace Sem3.Sched

open Loop

variable {alg : Algo} {t q : ℤ} {s : Sim} {threads : List Params}

/-- The not-yet-arrived list, the ready list and the active thread, one after the other. -/
def Sim.places (s : Sim) : List ℕ := s.list ++ s.running

/-- What holds at the head of every pass. -/
structure Inv (threads : List Params) (t : ℤ) (s : Sim) : Prop where
  nodup : s.places.Nodup
  lt : ∀ a ∈ s.places, a < threads.length
  dropped : ∀ a < threads.length, a ∉ s.places → (s.ctx a).target ≤ 0
  number : ∀ a < threads.length, (s.ctx a).n = a + 1
  start : ∀ a, (s.ctx a).start = (context threads a).start
  arrived : ∀ a ∈ s.running, (s.ctx a).start ≤ s.millis
  worked : ∀ a < threads.length,
    (s.ctx a).target = (context threads a).target - s.rowsOf a * t
  printed : ∀ r ∈ s.rows, ∀ a < threads.length, r.2 = a + 1 → (context threads a).start ≤ r.1

theorem context_n {a : ℕ} (h : a < threads.length) : (context threads a).n = a + 1 := by
  unfold context
  rw [List.getElem?_eq_getElem h]

theorem Inv.init (threads : List Params) (t q : ℤ) : Inv threads t (Sim.init threads q) where
  nodup := by
    have hplaces : (Sim.init threads q).places = List.range threads.length := by
      simp [Sim.places, Sim.running, Sim.init]
    rw [hplaces]
    exact List.nodup_range
  lt := fun a ha => by simpa [Sim.places, Sim.running, Sim.init] using ha
  dropped := fun a ha hno => absurd ha (by simpa [Sim.places, Sim.running, Sim.init] using hno)
  number := fun a ha => context_n ha
  start := fun a => rfl
  arrived := fun a ha => absurd ha (by simp [Sim.running, Sim.init])
  worked := fun a _ => by simp [Sim.init, Sim.rowsOf]
  printed := fun r hr => absurd hr (by simp [Sim.init])

/-- A pass keeps the threads in their places, apart from a finished one that it drops. -/
theorem tick_places (alg : Algo) (t q : ℤ) (s : Sim) :
    ∃ dropped : List ℕ, (∀ a ∈ dropped, (s.ctx a).target ≤ 0) ∧
      s.places.Perm (dropped ++ (s.tick alg t q).places) := by
  obtain ⟨dropped, hdropped, hperm⟩ := tick_running alg t q s
  refine ⟨dropped, fun a ha => (hdropped a ha).2, ?_⟩
  have harrive := arrive_perm (s := s)
  rw [List.perm_iff_count] at harrive hperm ⊢
  intro a
  have h1 := harrive a
  have h2 := hperm a
  simp only [Sim.places, Sim.running, tick_list, List.count_append] at h1 h2 ⊢
  omega

theorem arrive_arrived (hI : Inv threads t s) :
    ∀ a ∈ s.arrive.ready ++ s.active.toList, (s.ctx a).start ≤ s.millis := by
  intro a ha
  simp only [Sim.arrive, List.mem_append, List.mem_filter, decide_eq_true_eq] at ha
  rcases ha with (ha | ⟨-, ha⟩) | ha
  · exact hI.arrived a (List.mem_append_left _ ha)
  · exact ha
  · exact hI.arrived a (List.mem_append_right _ ha)

/-- The row of a pass names the active thread, or no thread. -/
theorem tick_rowsOf (hn : ∀ b, (s.tick alg t q).active = some b → (s.ctx b).n = b + 1) (a : ℕ) :
    (s.tick alg t q).rowsOf a =
      s.rowsOf a + if (s.tick alg t q).active = some a then 1 else 0 := by
  cases hact : (s.tick alg t q).active with
  | none =>
    obtain ⟨k, hrows⟩ := tick_rows_none hact
    simp [Sim.rowsOf, hrows, List.countP_append, List.countP_replicate]
  | some b =>
    simp [Sim.rowsOf, tick_rows_some hact, List.countP_append, List.countP_singleton, hn b hact]

/-- A pass prints a row for the thread that it executes, or for none. -/
theorem mem_tick_rows {r : ℤ × ℕ} (hr : r ∈ (s.tick alg t q).rows) :
    r ∈ s.rows ∨ r.2 = 0 ∨
      ∃ b, (s.tick alg t q).active = some b ∧ r = (s.millis, (s.ctx b).n) := by
  cases hact : (s.tick alg t q).active with
  | none =>
    obtain ⟨k, hrows⟩ := tick_rows_none hact
    rw [hrows, List.mem_append] at hr
    exact hr.imp_right fun hr => .inl (by rw [List.eq_of_mem_replicate hr])
  | some b =>
    rw [tick_rows_some hact, List.mem_append, List.mem_singleton] at hr
    exact hr.imp_right fun hr => .inr ⟨b, rfl, hr⟩

/-- A pass keeps the invariant. -/
theorem tick_inv (hI : Inv threads t s) (ht : 1 ≤ t) : Inv threads t (s.tick alg t q) := by
  obtain ⟨dropped, hdropped, hplaces⟩ := tick_places alg t q s
  obtain ⟨gone, -, hrunning⟩ := tick_running alg t q s
  have hmem : ∀ a ∈ (s.tick alg t q).places, a ∈ s.places := fun a ha =>
    hplaces.mem_iff.2 (List.mem_append_right _ ha)
  have hrun : ∀ a ∈ (s.tick alg t q).running, (s.ctx a).start ≤ s.millis := fun a ha =>
    arrive_arrived hI a (hrunning.mem_iff.2 (List.mem_append_right _ ha))
  have hactive : ∀ a, (s.tick alg t q).active = some a → a ∈ (s.tick alg t q).running :=
    fun a ha => List.mem_append_right _ (Option.mem_toList.2 ha)
  have hlt : ∀ a, (s.tick alg t q).active = some a → a < threads.length := fun a ha =>
    hI.lt a (hmem a (List.mem_append_right _ (hactive a ha)))
  have hn : ∀ a, (s.tick alg t q).active = some a → (s.ctx a).n = a + 1 := fun a ha =>
    hI.number a (hlt a ha)
  refine
    { nodup := ?nodup
      lt := fun a ha => hI.lt a (hmem a ha)
      dropped := ?dropped
      number := fun a ha => by rw [tick_n, hI.number a ha]
      start := fun a => by rw [tick_start, hI.start]
      arrived := ?arrived
      worked := ?worked
      printed := ?printed }
  case nodup => exact (List.nodup_append.1 (hplaces.nodup_iff.1 hI.nodup)).2.1
  case dropped =>
    intro a ha hno
    have hidle : (s.tick alg t q).active ≠ some a := fun h =>
      hno (List.mem_append_right _ (hactive a h))
    rw [tick_target, if_neg hidle, sub_zero]
    by_cases hp : a ∈ s.places
    · exact hdropped a ((List.mem_append.1 (hplaces.mem_iff.1 hp)).resolve_right hno)
    · exact hI.dropped a ha hp
  case arrived =>
    intro a ha
    have := hrun a ha
    rw [tick_start, tick_millis]
    omega
  case worked =>
    intro a ha
    rw [tick_target, hI.worked a ha, tick_rowsOf hn]
    by_cases hact : (s.tick alg t q).active = some a
    · rw [if_pos hact, if_pos hact]
      push_cast
      ring
    · rw [if_neg hact, if_neg hact, sub_zero, add_zero]
  case printed =>
    intro r hr a ha hra
    rcases mem_tick_rows hr with hr | h0 | ⟨b, hact, rfl⟩
    · exact hI.printed r hr a ha hra
    · omega
    · have hab : b = a := by
        have hnb := hn b hact
        simp only at hra
        omega
      rw [← hI.start a, ← hab]
      exact hrun b (hactive b hact)

/-- The invariant holds at the head of every pass. -/
theorem visits_inv (ht : 1 ≤ t) (h : Visits (step alg t q) (Sim.init threads q) s) :
    Inv threads t s :=
  visits_invariant h (Inv.init threads t q) fun _ hI _ => tick_inv hI ht

/-- At the head of every pass every thread is in exactly one place, once, or was dropped and is
finished; no thread is printed before its start; and if the loop ends, every thread was printed in
as many rows as its runtime takes. -/
theorem threads_conserved (alg : Algo) (t q : ℤ) (ht : 1 ≤ t) (threads : List Params) :
    (∀ s, Visits (step alg t q) (Sim.init threads q) s →
      (∀ a < threads.length,
        s.list.count a + s.ready.count a + s.active.toList.count a = 1 ∨
          s.list.count a + s.ready.count a + s.active.toList.count a = 0 ∧ (s.ctx a).target ≤ 0) ∧
      (∀ r ∈ s.rows, ∀ a < threads.length, r.2 = a + 1 → (context threads a).start ≤ r.1)) ∧
    (∀ s, Returns (step alg t q) (Sim.init threads q) s →
      ∀ a < threads.length, (context threads a).target ≤ s.rowsOf a * t) := by
  constructor
  · intro s hs
    have hI := visits_inv ht hs
    refine ⟨fun a ha => ?_, hI.printed⟩
    have hcount : s.places.count a = s.list.count a + s.ready.count a + s.active.toList.count a := by
      simp only [Sim.places, Sim.running, List.count_append]
      omega
    by_cases hp : a ∈ s.places
    · exact Or.inl (by rw [← hcount]; exact List.count_eq_one_of_mem hI.nodup hp)
    · exact Or.inr ⟨by rw [← hcount]; exact List.count_eq_zero_of_not_mem hp, hI.dropped a ha hp⟩
  · intro s hs a ha
    obtain ⟨s', hvis, hleave⟩ := hs.exists_visits
    have hI := visits_inv ht hvis
    obtain ⟨hgo, rfl⟩ := step_eq_leave.1 hleave
    have hw := hI.worked a ha
    -- the loop has ended, so the thread is active or was dropped, and is finished
    obtain ⟨hlist, hready, hactive, -⟩ := by simpa only [Sim.goesOn, not_or] using hgo
    have hdone : (s.ctx a).target ≤ 0 := by
      by_cases hp : a ∈ s.places
      · have ha' : s.active = some a := by
          simpa [Sim.places, Sim.running, not_not.1 hlist, not_not.1 hready] using hp
        by_contra hpos
        exact hactive ⟨a, ha', not_le.1 hpos⟩
      · exact hI.dropped a ha hp
    omega

/-- Three threads under round robin. -/
theorem threads_conserved_three :
    (∀ s, Visits (step .rr 1 2) (Sim.init [⟨1, 0, 3⟩, ⟨2, 1, 2⟩, ⟨1, 9, 0⟩] 2) s →
      (∀ a < [Params.mk 1 0 3, ⟨2, 1, 2⟩, ⟨1, 9, 0⟩].length,
        s.list.count a + s.ready.count a + s.active.toList.count a = 1 ∨
          s.list.count a + s.ready.count a + s.active.toList.count a = 0 ∧ (s.ctx a).target ≤ 0) ∧
      (∀ r ∈ s.rows, ∀ a < [Params.mk 1 0 3, ⟨2, 1, 2⟩, ⟨1, 9, 0⟩].length, r.2 = a + 1 →
        (context [⟨1, 0, 3⟩, ⟨2, 1, 2⟩, ⟨1, 9, 0⟩] a).start ≤ r.1)) ∧
    (∀ s, Returns (step .rr 1 2) (Sim.init [⟨1, 0, 3⟩, ⟨2, 1, 2⟩, ⟨1, 9, 0⟩] 2) s →
      ∀ a < [Params.mk 1 0 3, ⟨2, 1, 2⟩, ⟨1, 9, 0⟩].length,
        (context [⟨1, 0, 3⟩, ⟨2, 1, 2⟩, ⟨1, 9, 0⟩] a).target ≤ s.rowsOf a * 1) :=
  threads_conserved .rr 1 2 (by decide) [⟨1, 0, 3⟩, ⟨2, 1, 2⟩, ⟨1, 9, 0⟩]

end Sem3.Sched
