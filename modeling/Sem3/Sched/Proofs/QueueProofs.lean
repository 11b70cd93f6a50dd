import Sem3.Sched.Proofs.ChoiceProofs
import Sem3.Sched.Proofs.ConservationProofs

/-!
# Proofs: no starvation within a priority level

A thread that is chosen leaves the ready list, and comes back to its end. So a thread `b` that waits
then stands before it, and stays there until it is chosen itself: threads are taken out at any place,
but are only added behind.
-/

namespace Sem3.Sched

open Loop

variable {alg : Algo} {t q : ℤ} {s : Sim} {threads : List Params} {a b : ℕ} {l l' : List ℕ}

/-! ## Decisions -/

theorem scheduled_of_decides (alg : Algo) (h : s.decides q) :
    ((s.scheduled alg q).ready, (s.scheduled alg q).active) =
      alg.run s.ctx s.arrive.ready s.active := by
  have h' : s.arrive.lastQ + q = s.arrive.millis ∨ s.arrive.active = none := h
  simp only [Sim.scheduled, Sim.schedule, if_pos h']
  rfl

theorem scheduled_of_not_decides (h : ¬ s.decides q) : s.scheduled alg q = s.arrive := by
  have h' : ¬ (s.arrive.lastQ + q = s.arrive.millis ∨ s.arrive.active = none) := h
  simp only [Sim.scheduled, Sim.schedule, if_neg h']

/-! ## Waiting -/

/-- `b` stands in the list, and `a` does not stand before it. -/
def Waits (a b : ℕ) (l : List ℕ) : Prop := ∃ u v, l = u ++ b :: v ∧ a ∉ u

/-- A thread in the list waits for one that is not. -/
theorem Waits.of_mem (hb : b ∈ l) (ha : a ∉ l) : Waits a b l := by
  obtain ⟨u, v, rfl⟩ := List.append_of_mem hb
  exact ⟨u, v, rfl, fun hu => ha (List.mem_append_left _ hu)⟩

/-- Threads that are added behind do not pass the one that waits. -/
theorem Waits.append (h : Waits a b l) (l' : List ℕ) : Waits a b (l ++ l') := by
  obtain ⟨u, v, rfl, ha⟩ := h
  exact ⟨u, v ++ l', by simp, ha⟩

/-- What is left of the list when a thread `c` is taken out. -/
theorem Waits.take_out {u v : List ℕ} {c : ℕ} (h : Waits a b (u ++ c :: v)) :
    c = b ∨ Waits a b (u ++ v) ∧ (c = a → b ∈ u) := by
  obtain ⟨u', v', heq, ha⟩ := h
  rcases List.append_eq_append_iff.1 heq with ⟨x, rfl, hx⟩ | ⟨x, rfl, hx⟩
  · cases x with
    | nil => exact .inl (List.cons.inj hx).1
    | cons d x =>
      -- `c` stands before `b`, so it is not `a`
      obtain ⟨rfl, rfl⟩ := List.cons.inj hx
      refine .inr ⟨⟨u ++ x, v', by simp, ?_⟩, ?_⟩
      · simp only [List.mem_append, List.mem_cons, not_or] at ha ⊢
        exact ⟨ha.1, ha.2.2⟩
      · rintro rfl
        simp at ha
  · cases x with
    | nil => exact .inl (List.cons.inj hx).1.symm
    | cons d x =>
      obtain ⟨rfl, rfl⟩ := List.cons.inj hx
      exact .inr ⟨⟨u', x ++ v, by simp, ha⟩, fun _ => by simp⟩

/-- A thread that waits goes on waiting until it is chosen, and until then no thread that is no
better is chosen from behind it. -/
theorem tick_waits (hkey : alg.key (s.ctx b) ≤ alg.key (s.ctx a)) (h : Waits a b s.ready) :
    s.selects alg t q b ∨ Waits a b (s.tick alg t q).ready ∧ ¬ s.selects alg t q a := by
  have harrive : Waits a b s.arrive.ready := h.append _
  by_cases hd : s.decides q
  · have hpending : Waits a b (pending s.ctx s.arrive.ready s.active) := harrive.append _
    have hne : pending s.ctx s.arrive.ready s.active ≠ [] := by
      obtain ⟨u, v, heq, -⟩ := hpending
      simp [heq]
    obtain ⟨c, u, v, hsplit, hrun, -, hu⟩ := run_split alg s.ctx s.arrive.ready s.active hne
    rw [← scheduled_of_decides alg hd, Prod.mk.injEq] at hrun
    rw [hsplit] at hpending
    rcases hpending.take_out with rfl | ⟨hwaits, hbefore⟩
    · exact .inl ⟨hd, by rw [tick_active, hrun.2]⟩
    · refine .inr ⟨by rw [tick_ready, hrun.1]; exact hwaits, fun hsel => ?_⟩
      have hca : c = a := by
        have hactive := hsel.2
        rw [tick_active, hrun.2] at hactive
        exact Option.some.inj hactive
      have hlt := hu b (hbefore hca)
      rw [hca] at hlt
      exact absurd hkey (not_le.2 hlt)
  · refine .inr ⟨?_, fun hsel => hd hsel.1⟩
    rw [tick_ready, scheduled_of_not_decides hd]
    exact harrive

/-! ## Runs -/

theorem visits_nodup (h : Visits (step alg t q) (Sim.init threads q) s) : s.places.Nodup := by
  refine visits_invariant (I := fun s => s.places.Nodup) h (Inv.init threads t q).nodup ?_
  intro s hnodup _
  obtain ⟨dropped, -, hplaces⟩ := tick_places alg t q s
  exact (List.nodup_append.1 (hplaces.nodup_iff.1 hnodup)).2.1

/-- No thread changes its priority. -/
theorem visits_prio (h : Visits (step alg t q) (Sim.init threads q) s) (a : ℕ) :
    (s.ctx a).prio = (context threads a).prio := by
  refine visits_invariant (I := fun s => (s.ctx a).prio = (context threads a).prio) h rfl ?_
  intro s hprio _
  rw [tick_prio, hprio]

theorem passes_eq_tick {s : ℕ → Sim} {n k : ℕ} (h : Passes (step alg t q) s n) (hk : k < n) :
    s (k + 1) = (s k).tick alg t q :=
  (step_eq_again.1 (h k hk)).2

/-- If `a` is chosen in the passes `i` and `j`, a thread of its priority that waits behind pass `i`
is chosen in between; under `rr` every thread that waits is. -/
theorem no_starvation (alg : Algo) (halg : alg = .rr ∨ alg = .prr) (t q : ℤ) (threads : List Params)
    (s : ℕ → Sim) (n : ℕ) (h0 : s 0 = Sim.init threads q) (hrun : Passes (step alg t q) s n)
    (i j a b : ℕ) (hij : i < j) (hj : j < n) (hi : (s i).selects alg t q a)
    (hja : (s j).selects alg t q a) (hb : b ∈ (s (i + 1)).ready)
    (hprio : alg = .prr → (context threads b).prio = (context threads a).prio) :
    ∃ k, i < k ∧ k < j ∧ (s k).selects alg t q b := by
  have hvisits : ∀ k ≤ n, Visits (step alg t q) (Sim.init threads q) (s k) := fun k hk =>
    h0 ▸ hrun.visits hk
  have hkey : ∀ k ≤ n, alg.key ((s k).ctx b) ≤ alg.key ((s k).ctx a) := by
    intro k hk
    rcases halg with rfl | rfl
    · exact le_refl _
    · show ((s k).ctx b).prio ≤ ((s k).ctx a).prio
      rw [visits_prio (hvisits k hk), visits_prio (hvisits k hk), hprio rfl]
  have ha : a ∉ (s (i + 1)).ready := by
    have hnodup := visits_nodup (hvisits (i + 1) (by omega))
    have hactive : (s (i + 1)).active = some a := by rw [passes_eq_tick hrun (by omega), hi.2]
    intro hmem
    have hrunning := (List.nodup_append.1 hnodup).2.1
    exact (List.nodup_append.1 hrunning).2.2 a hmem a (by simp [hactive]) rfl
  -- until `b` is chosen it waits
  have hwaits : ∀ m, i + 1 + m ≤ j →
      (∃ k, i < k ∧ k < i + 1 + m ∧ (s k).selects alg t q b) ∨
        Waits a b (s (i + 1 + m)).ready := by
    intro m hm
    induction m with
    | zero => exact .inr (Waits.of_mem hb ha)
    | succ m ih =>
      rcases ih (by omega) with ⟨k, hik, hkm, hsel⟩ | hw
      · exact .inl ⟨k, hik, by omega, hsel⟩
      · rcases tick_waits (hkey _ (by omega)) hw with hsel | ⟨hw', -⟩
        · exact .inl ⟨i + 1 + m, by omega, by omega, hsel⟩
        · rw [← passes_eq_tick hrun (by omega)] at hw'
          exact .inr hw'
  rcases hwaits (j - (i + 1)) (by omega) with ⟨k, hik, hkj, hsel⟩ | hw
  · exact ⟨k, hik, by omega, hsel⟩
  · rw [Nat.add_sub_cancel' (by omega : i + 1 ≤ j)] at hw
    rcases tick_waits (hkey j (by omega)) hw with hsel | ⟨-, hno⟩
    · have hab : a = b := Option.some.inj (hja.2.symm.trans hsel.2)
      exact absurd (hab ▸ hb) ha
    · exact absurd hja hno

/-- Two threads that take turns. -/
def turns (k : ℕ) : Sim := (Sim.tick .rr 1 1)^[k] (Sim.init [⟨1, 0, 3⟩, ⟨1, 0, 2⟩] 1)

/-- Two threads take turns. -/
theorem no_starvation_turns : ∃ k, 0 < k ∧ k < 2 ∧ (turns k).selects .rr 1 1 1 := by
  refine no_starvation .rr (.inl rfl) 1 1 _ turns 3 rfl ?_ 0 2 0 1 (by decide) (by decide)
    ⟨.inr rfl, rfl⟩ ⟨.inl rfl, rfl⟩ (by decide) fun h => nomatch h
  intro k hk
  have hgo : ∀ k < 3, (turns k).goesOn 1 := by decide
  rw [step, if_pos (hgo k hk), turns, turns, Function.iterate_succ_apply']

end Sem3.Sched
