import Sem3.Sched.Proofs.ConservationProofs
import Mathlib.Algebra.BigOperators.Group.List.Basic
import Mathlib.Algebra.Ring.Divisibility.Basic
import Mathlib.Algebra.Ring.Int.Defs
import Mathlib.Data.Fintype.Order

/-!
# Proofs: termination of the simulation

The slot of the active thread ends when `millis` is exactly `lastQ + q`. If `t` divides `q`, this
comes about, and four numbers go down lexicographically: the time until the last arrival, the work
that is left, the finished threads that still wait for a slot, and the time until the slot is over
or `millis` is a multiple of `q`. If `t` does not divide `q`, the first slot never ends.
-/

namespace Sem3.Sched

open Loop

variable {alg : Algo} {t q B : ℤ} {s : Sim} {threads : List Params}

/-! ## Divergence -/

/-- The first slot is not over, and the other threads wait. -/
structure Stuck (threads : List Params) (t : ℤ) (s : Sim) : Prop where
  dvd : t ∣ s.millis
  idle : s.active = none → s.list.length + s.ready.length = threads.length
  busy : s.active ≠ none → t ∣ s.lastQ ∧ s.list.length + s.ready.length + 1 = threads.length

theorem arrive_length : s.arrive.list.length + s.arrive.ready.length =
    s.list.length + s.ready.length := by
  have := (arrive_perm (s := s)).length_eq
  rwa [List.length_append, List.length_append] at this

/-- If `t` does not divide `q`, a pass does not end the slot. -/
theorem tick_stuck (htq : ¬ t ∣ q) (h : Stuck threads t s) : Stuck threads t (s.tick alg t q) := by
  have hlen := arrive_length (s := s)
  have hdvd : t ∣ (s.tick alg t q).millis := by
    rw [tick_millis]
    exact dvd_add h.dvd dvd_rfl
  rcases schedule_cases alg q s with ⟨-, hact, hr, ha, hq⟩ | ⟨hslot, hq, hchoose⟩
  · obtain ⟨hlast, hbusy⟩ := h.busy hact
    refine ⟨hdvd, fun hnone => ?_, fun _ => ?_⟩
    · rw [tick_active, ha] at hnone
      exact absurd hnone hact
    · rw [tick_lastQ, tick_list, tick_ready, hr, hq]
      exact ⟨hlast, by omega⟩
  · -- the slot cannot be over, so there was no active thread
    have hnone : s.active = none := by
      by_contra hact
      obtain ⟨hlast, -⟩ := h.busy hact
      have hsum := hslot.resolve_right hact
      refine htq ((dvd_add_right hlast).1 ?_)
      rw [hsum]
      exact h.dvd
    have hidle := h.idle hnone
    rw [hnone] at hchoose
    simp only [pending, Option.toList_none, List.filter_nil, List.append_nil] at hchoose
    rcases hchoose with ⟨hp, hr, ha⟩ | ⟨a, ha, hp⟩
    · refine ⟨hdvd, fun _ => ?_, fun hact => ?_⟩
      · rw [hp] at hlen
        rw [tick_list, tick_ready, hr]
        omega
      · rw [tick_active, ha] at hact
        exact absurd rfl hact
    · refine ⟨hdvd, fun hnone' => ?_, fun _ => ?_⟩
      · rw [tick_active, ha] at hnone'
        cases hnone'
      · have := hp.length_eq
        rw [List.length_cons] at this
        rw [tick_lastQ, tick_list, tick_ready, hq]
        exact ⟨h.dvd, by omega⟩

/-- As long as there are other threads, the loop goes on. -/
theorem Stuck.goesOn (h : Stuck threads t s) (hn : 2 ≤ threads.length) : s.goesOn q := by
  by_contra hgo
  obtain ⟨hlist, hready, -⟩ := by simpa only [Sim.goesOn, not_or] using hgo
  rw [not_not] at hlist hready
  by_cases hact : s.active = none
  · have := h.idle hact
    simp [hlist, hready] at this
    omega
  · have := (h.busy hact).2
    simp [hlist, hready] at this
    omega

/-- If `t` does not divide `q`, two threads never end. -/
theorem not_returns_of_not_dvd (htq : ¬ t ∣ q) (hn : 2 ≤ threads.length) (s' : Sim) :
    ¬ Returns (step alg t q) (Sim.init threads q) s' := by
  refine not_returns (I := Stuck threads t) ⟨by simp [Sim.init], fun _ => by simp [Sim.init],
    fun h => absurd rfl h⟩ fun a h => ⟨a.tick alg t q, ?_, tick_stuck htq h⟩
  rw [step, if_pos (h.goesOn hn)]

/-! ## Termination -/

/-- What bounds the length of a slot: `t` divides `q`, or there is at most one thread. -/
structure Slot (t q : ℤ) (s : Sim) : Prop where
  dvd : t ∣ s.millis
  slot : t ∣ q → s.active ≠ none →
    t ∣ s.lastQ ∧ s.lastQ < s.millis ∧ s.millis ≤ s.lastQ + q
  few : ¬ t ∣ q → s.places.length ≤ 1

theorem tick_slot (ht : 1 ≤ t) (hq : 1 ≤ q) (h : Slot t q s) : Slot t q (s.tick alg t q) := by
  refine ⟨?_, fun htq hact => ?_, fun htq => ?_⟩
  · rw [tick_millis]
    exact dvd_add h.dvd dvd_rfl
  · rw [tick_active] at hact
    rw [tick_lastQ, tick_millis]
    rcases schedule_cases alg q s with ⟨hne, hact', -, -, hlast⟩ | ⟨-, hlast, -⟩
    · obtain ⟨hdvd, hlt, hle⟩ := h.slot htq hact'
      rw [hlast]
      have hgap : t ∣ s.lastQ + q - s.millis := dvd_sub (dvd_add hdvd htq) h.dvd
      have := Int.le_of_dvd (by omega) hgap
      exact ⟨hdvd, by omega, by omega⟩
    · have := Int.le_of_dvd (by omega) htq
      rw [hlast]
      exact ⟨h.dvd, by omega, by omega⟩
  · obtain ⟨dropped, -, hperm⟩ := tick_places alg t q s
    have := hperm.length_eq
    have := h.few htq
    rw [List.length_append] at *
    omega

/-- The time until the last arrival. -/
def arriving (B : ℤ) (s : Sim) : ℕ := if s.list = [] then 0 else (B - s.millis).toNat + 1

/-- The work that the threads `l` still have to do. -/
def workOf (s : Sim) (l : List ℕ) : ℕ := (l.map fun a => (s.ctx a).target.toNat).sum

/-- The number of finished threads among `l`. -/
def finishedOf (s : Sim) (l : List ℕ) : ℕ := l.countP fun a => (s.ctx a).target ≤ 0

/-- Finished threads that wait for a slot count twice, and once while they have it. -/
def idling (s : Sim) : ℕ := 2 * finishedOf s s.ready + finishedOf s s.active.toList

/-- The time until the slot is over, or until `millis` is a multiple of `q`. -/
def waiting (t q : ℤ) (s : Sim) : ℕ :=
  if s.ready = [] then ((-s.millis) % (t * q)).toNat else (s.lastQ + q - s.millis).toNat

/-- Goes down with every pass. -/
def Sim.measure (B t q : ℤ) (s : Sim) : ℕ × ℕ × ℕ × ℕ :=
  (arriving B s, workOf s s.running, idling s, waiting t q s)

/-- The lexicographic order of the measure. -/
def Lower : ℕ × ℕ × ℕ × ℕ → ℕ × ℕ × ℕ × ℕ → Prop :=
  Prod.Lex (· < ·) (Prod.Lex (· < ·) (Prod.Lex (· < ·) (· < ·)))

theorem lower_wf : WellFounded Lower :=
  WellFounded.prod_lex Nat.lt_wfRel.wf (WellFounded.prod_lex Nat.lt_wfRel.wf
    (WellFounded.prod_lex Nat.lt_wfRel.wf Nat.lt_wfRel.wf))

theorem workOf_append (l l' : List ℕ) : workOf s (l ++ l') = workOf s l + workOf s l' := by
  simp [workOf]

theorem workOf_congr {s' : Sim} {l : List ℕ}
    (h : ∀ a ∈ l, (s'.ctx a).target.toNat = (s.ctx a).target.toNat) :
    workOf s' l = workOf s l :=
  congrArg List.sum (List.map_congr_left h)

theorem workOf_eq_zero {l : List ℕ} (h : ∀ a ∈ l, (s.ctx a).target ≤ 0) : workOf s l = 0 := by
  apply List.sum_eq_zero
  intro x hx
  obtain ⟨a, ha, rfl⟩ := List.mem_map.1 hx
  exact Int.toNat_of_nonpos (h a ha)

/-- An unfinished thread that goes back to the ready list does not count as finished. -/
theorem finishedOf_pending :
    finishedOf s (pending s.ctx s.ready s.active) = finishedOf s s.ready := by
  unfold pending finishedOf
  rw [List.countP_append, Nat.add_eq_left, List.countP_eq_zero]
  intro a ha
  simpa using (List.mem_filter.1 ha).2

/-- Nothing is lost when threads are dropped or change places. -/
theorem workOf_running (hlist : s.list = []) :
    workOf s (s.tick alg t q).running = workOf s s.running := by
  obtain ⟨dropped, hdropped, hperm⟩ := tick_running alg t q s
  have hready : s.arrive.ready ++ s.active.toList = s.running := by
    simp [Sim.arrive, Sim.running, hlist]
  have hsum : workOf s s.running = workOf s (dropped ++ (s.tick alg t q).running) := by
    rw [← hready]
    exact (hperm.map _).sum_eq
  rw [hsum, workOf_append, workOf_eq_zero fun a ha => (hdropped a ha).2, Nat.zero_add]

/-- The thread that is executed has less work left. -/
theorem workOf_tick_lt {a : ℕ} (ht : 1 ≤ t) (hact : (s.tick alg t q).active = some a)
    (hpos : 0 < (s.ctx a).target) (hnodup : (s.tick alg t q).running.Nodup) :
    workOf (s.tick alg t q) (s.tick alg t q).running < workOf s (s.tick alg t q).running := by
  unfold Sim.running at hnodup ⊢
  rw [hact, Option.toList_some] at hnodup ⊢
  have hrest : workOf (s.tick alg t q) (s.tick alg t q).ready =
      workOf s (s.tick alg t q).ready := by
    apply workOf_congr
    intro b hb
    have hidle : (s.tick alg t q).active ≠ some b := by
      rw [hact]
      rintro ⟨⟩
      exact (List.nodup_append.1 hnodup).2.2 a hb a (List.mem_singleton_self a) rfl
    rw [tick_target, if_neg hidle, sub_zero]
  rw [workOf_append, workOf_append, hrest]
  simp only [workOf, List.map_cons, List.map_nil, List.sum_singleton, tick_target, hact, if_true]
  omega

/-- A pass of a thread that is finished, or of no thread, leaves the two numbers as they are. -/
theorem tick_target_of_finished (ht : 1 ≤ t)
    (hdone : ∀ a, (s.tick alg t q).active = some a → (s.ctx a).target ≤ 0) (a : ℕ) :
    ((s.tick alg t q).ctx a).target.toNat = (s.ctx a).target.toNat ∧
      (((s.tick alg t q).ctx a).target ≤ 0 ↔ (s.ctx a).target ≤ 0) := by
  rw [tick_target]
  split_ifs with hact
  · have := hdone a hact
    omega
  · simp

/-- While `millis` is no multiple of `q`, the distance to the next common multiple shrinks. -/
theorem neg_emod_lt {m : ℤ} (ht : 1 ≤ t) (hq : 1 ≤ q) (hdvd : t ∣ m) (hm : m.tmod q ≠ 0) :
    ((-(m + t)) % (t * q)).toNat < ((-m) % (t * q)).toNat := by
  have htq : 0 < t * q := Int.mul_pos (by omega) (by omega)
  have hdiv := Int.emod_add_mul_ediv (-m) (t * q)
  set x := (-m) % (t * q) with hx
  have hx0 : 0 ≤ x := Int.emod_nonneg _ (by omega)
  have hxlt : x < t * q := Int.emod_lt_of_pos _ htq
  have hdx : t ∣ x := by
    rw [← dvd_add_left (dvd_mul_of_dvd_left (dvd_mul_right t q) (-m / (t * q))), hdiv]
    exact (Int.dvd_neg).2 hdvd
  have hne : x ≠ 0 := by
    intro h0
    refine hm (Int.tmod_eq_zero_of_dvd ((dvd_mul_left q t).trans ?_))
    have := Int.dvd_of_emod_eq_zero (hx.symm.trans h0)
    rwa [Int.dvd_neg] at this
  have hle := Int.le_of_dvd (by omega) hdx
  have heq : (-(m + t)) % (t * q) = x - t := by
    rw [show -(m + t) = x - t + t * q * (-m / (t * q)) by omega, Int.add_mul_emod_self_left]
    exact Int.emod_eq_of_lt (by omega) (by omega)
  rw [heq]
  omega

/-- As long as threads are to come, the time until the last arrival shrinks. -/
theorem arriving_lt (ht : 1 ≤ t) (hB : ∀ a ∈ s.list, (s.ctx a).start ≤ B) (hlist : s.list ≠ []) :
    arriving B (s.tick alg t q) < arriving B s := by
  unfold arriving
  rw [tick_list, tick_millis, if_neg hlist]
  split_ifs with harrive
  · omega
  · obtain ⟨a, ha⟩ := List.exists_mem_of_ne_nil _ harrive
    simp only [Sim.arrive, List.mem_filter, decide_eq_true_eq, not_le] at ha
    have := hB a ha.1
    omega

/-- With no thread that has work to do, the loop only goes on for the sake of `millis`. -/
theorem tmod_ne_zero (hgo : s.goesOn q) (hlist : s.list = []) (hready : s.ready = [])
    (hdone : ∀ a, s.active = some a → (s.ctx a).target ≤ 0) : s.millis.tmod q ≠ 0 := by
  rcases hgo with h | h | ⟨a, hact, hpos⟩ | h
  · exact absurd hlist h
  · exact absurd hready h
  · exact absurd hpos (not_lt.2 (hdone a hact))
  · exact h

/-- If two threads run, `t` divides `q`. -/
theorem Slot.dvd_quantum (hS : Slot t q s) (hact : s.active ≠ none) (hready : s.ready ≠ []) :
    t ∣ q := by
  by_contra htq
  have hfew := hS.few htq
  obtain ⟨a, hact'⟩ := Option.ne_none_iff_exists'.1 hact
  have := List.length_pos_iff.2 hready
  simp only [Sim.places, Sim.running, hact', List.length_append, Option.toList_some,
    List.length_singleton] at hfew
  omega

/-- While no thread has work to do, the slots of the finished threads are used up, and at last
`millis` becomes a multiple of `q`. -/
theorem idle_lower (ht : 1 ≤ t) (hq : 1 ≤ q) (hS : Slot t q s) (hlist : s.list = [])
    (hgo : s.goesOn q)
    (hdone : ∀ a, (s.tick alg t q).active = some a → (s.ctx a).target ≤ 0) :
    idling (s.tick alg t q) < idling s ∨
      idling (s.tick alg t q) = idling s ∧ waiting t q (s.tick alg t q) < waiting t q s := by
  have hfinished : ∀ l, finishedOf (s.tick alg t q) l = finishedOf s l := fun l =>
    List.countP_congr fun a _ => by simpa using (tick_target_of_finished ht hdone a).2
  have harrive : s.arrive.ready = s.ready := by simp [Sim.arrive, hlist]
  unfold idling waiting
  rw [hfinished, hfinished]
  simp only [tick_ready, tick_active, tick_lastQ, tick_millis] at hdone ⊢
  rcases schedule_cases alg q s with ⟨hne, hact, hr, ha, hlast⟩ | ⟨-, hlast, hchoose⟩
  · -- the slot of a finished thread goes on
    apply Or.inr
    rw [hr, ha, hlast, harrive]
    rw [ha] at hdone
    refine ⟨rfl, ?_⟩
    split_ifs with hready
    · exact neg_emod_lt ht hq hS.dvd (tmod_ne_zero hgo hlist hready hdone)
    · obtain ⟨-, -, hle⟩ := hS.slot (hS.dvd_quantum hact hready) hact
      omega
  · rw [harrive] at hchoose
    have hpending := finishedOf_pending (s := s)
    rcases hchoose with ⟨hp, hr, ha⟩ | ⟨a, ha, hp⟩
    · -- no thread is left, apart perhaps from a finished one that had the slot
      have hready : s.ready = [] := (List.append_eq_nil_iff.1 hp).1
      rw [hr, ha, hready]
      cases hact : s.active with
      | none =>
        have hmod : s.millis.tmod q ≠ 0 := by
          apply tmod_ne_zero hgo hlist hready
          intro a ha
          rw [hact] at ha
          cases ha
        exact Or.inr ⟨rfl, by simpa using neg_emod_lt ht hq hS.dvd hmod⟩
      | some a =>
        have hle : (s.ctx a).target ≤ 0 := by
          rw [pending, hact, List.append_eq_nil_iff] at hp
          simpa using hp.2
        exact Or.inl (by simp [finishedOf, hle])
    · -- a finished thread leaves the ready list
      have hcount := hp.countP_eq fun b => decide ((s.ctx b).target ≤ 0)
      rw [List.countP_cons, if_pos (by simpa using hdone a ha)] at hcount
      have hactive : finishedOf s (some a).toList = 1 := by simp [finishedOf, hdone a ha]
      rw [ha, hactive]
      unfold finishedOf at hpending ⊢
      exact Or.inl (by omega)

theorem tick_lower (ht : 1 ≤ t) (hq : 1 ≤ q) (hI : Inv threads t s) (hS : Slot t q s)
    (hB : ∀ a < threads.length, (context threads a).start ≤ B) (hgo : s.goesOn q) :
    Lower ((s.tick alg t q).measure B t q) (s.measure B t q) := by
  unfold Lower Sim.measure
  by_cases hlist : s.list = []
  · have harriving : arriving B (s.tick alg t q) = arriving B s := by
      simp [arriving, Sim.arrive, hlist]
    rw [harriving]
    apply Prod.Lex.right _
    by_cases hbusy : ∃ a, (s.tick alg t q).active = some a ∧ 0 < (s.ctx a).target
    · obtain ⟨a, hact, hpos⟩ := hbusy
      have hinv : Inv threads t (s.tick alg t q) := tick_inv hI ht
      have hnodup := (List.nodup_append.1 hinv.nodup).2.1
      apply Prod.Lex.left _ _
      rw [← workOf_running hlist]
      exact workOf_tick_lt ht hact hpos hnodup
    · have hdone : ∀ a, (s.tick alg t q).active = some a → (s.ctx a).target ≤ 0 := fun a ha =>
        not_lt.1 fun hpos => hbusy ⟨a, ha, hpos⟩
      have hwork : workOf (s.tick alg t q) (s.tick alg t q).running = workOf s s.running := by
        rw [← workOf_running hlist]
        exact workOf_congr fun a _ => (tick_target_of_finished ht hdone a).1
      rw [hwork]
      apply Prod.Lex.right _
      rcases idle_lower ht hq hS hlist hgo hdone with hlt | ⟨heq, hlt⟩
      · exact Prod.Lex.left _ _ hlt
      · rw [heq]
        exact Prod.Lex.right _ hlt
  · refine Prod.Lex.left _ _ (arriving_lt ht (fun a ha => ?_) hlist)
    rw [hI.start]
    exact hB a (hI.lt a (List.mem_append_left _ ha))

theorem Slot.init (h : t ∣ q ∨ threads.length ≤ 1) : Slot t q (Sim.init threads q) where
  dvd := by simp [Sim.init]
  slot := fun _ hact => absurd rfl hact
  few := fun htq => by
    simpa [Sim.places, Sim.running, Sim.init] using h.resolve_left htq

/-- If `t` divides `q`, or there is one thread at most, the loop ends. -/
theorem exists_returns_of_dvd (ht : 1 ≤ t) (hq : 1 ≤ q) (h : t ∣ q ∨ threads.length ≤ 1) :
    ∃ s, Returns (step alg t q) (Sim.init threads q) s := by
  obtain ⟨B, hB⟩ := Finite.exists_le fun a : Fin threads.length => (context threads a).start
  refine exists_returns lower_wf (Sim.measure B t q)
    (I := fun s => Inv threads t s ∧ Slot t q s) ⟨Inv.init threads t q, Slot.init h⟩ ?_
  rintro a b ⟨hI, hS⟩ hab
  obtain ⟨hgo, rfl⟩ := step_eq_again.1 hab
  exact ⟨⟨tick_inv hI ht, tick_slot ht hq hS⟩, tick_lower ht hq hI hS (fun a ha => hB ⟨a, ha⟩) hgo⟩

/-- The simulation loop leaves if and only if the step divides the quantum, or there is at most one
thread. -/
theorem returns_iff_dvd (alg : Algo) (t q : ℤ) (ht : 1 ≤ t) (hq : 1 ≤ q) (threads : List Params) :
    (∃ s, Returns (step alg t q) (Sim.init threads q) s) ↔ t ∣ q ∨ threads.length ≤ 1 := by
  constructor
  · rintro ⟨s, hs⟩
    by_contra h
    obtain ⟨htq, hn⟩ := not_or.1 h
    exact not_returns_of_not_dvd htq (by omega) s hs
  · exact exists_returns_of_dvd ht hq

/-- A step of 1 and a quantum of 2. -/
theorem returns_iff_dvd_one_two :
    (∃ s, Returns (step .srtn 1 2) (Sim.init [⟨1, 0, 3⟩, ⟨2, 1, 2⟩] 2) s) ↔
      (1 : ℤ) ∣ 2 ∨ [Params.mk 1 0 3, ⟨2, 1, 2⟩].length ≤ 1 :=
  returns_iff_dvd .srtn 1 2 (by decide) (by decide) [⟨1, 0, 3⟩, ⟨2, 1, 2⟩]

/-- With a step of 2 and a quantum of 3 the first slot never ends. -/
theorem not_returns_two_three :
    (∀ p ∈ [Params.mk 1 0 5, ⟨1, 0, 5⟩], p.valid) ∧
      ¬ ∃ s, Returns (step .rr 2 3) (Sim.init [⟨1, 0, 5⟩, ⟨1, 0, 5⟩] 3) s := by
  refine ⟨by decide, ?_⟩
  rintro ⟨s, hs⟩
  exact not_returns_of_not_dvd (by decide) (by decide) s hs

end Sem3.Sched
