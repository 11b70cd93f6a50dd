import Sem3.Sched.Proofs.QueueProofs

/-!
# Proofs: the shortest remaining time

`srtn` chooses the thread with the least work left, but only when a slot is over or no thread is
active. Within a slot the active thread stays the shortest one unless a shorter one arrives.
-/

namespace Sem3.Sched

open Loop

variable {t q : ℤ} {s : Sim} {threads : List Params} {a b : ℕ}

/-- The active thread is no longer than the unfinished ones that are ready. -/
def Leads (s : Sim) : Prop :=
  ∀ a, s.active = some a → ∀ b ∈ s.ready, 0 < (s.ctx b).target → (s.ctx a).target ≤ (s.ctx b).target

/-- Who competes is in the list that the pass chooses from, or active. -/
theorem mem_of_competes (hI : Inv threads t s) (hb : s.competes threads b) :
    b ∈ s.arrive.ready ∨ s.active = some b := by
  obtain ⟨hlt, hstart, hpos⟩ := hb
  have hplace : b ∈ s.places := by
    by_contra hno
    exact absurd hpos (not_lt.2 (hI.dropped b hlt hno))
  simp only [Sim.places, Sim.running, List.mem_append, Option.mem_toList] at hplace
  rcases hplace with hlist | hready | hactive
  · exact .inl (List.mem_append_right _ (List.mem_filter.2 ⟨hlist, by simpa using hstart⟩))
  · exact .inl (List.mem_append_left _ hready)
  · exact .inr hactive

/-- What a decision leads to. -/
theorem decision_shortest (hd : s.decides q) (ha : (s.tick .srtn t q).active = some a) :
    (∀ b ∈ pending s.ctx s.arrive.ready s.active, (s.ctx a).target ≤ (s.ctx b).target) ∧
      ∀ b ∈ (s.tick .srtn t q).ready, b ∈ pending s.ctx s.arrive.ready s.active := by
  rw [tick_active] at ha
  rw [tick_ready]
  have hrun := scheduled_of_decides .srtn hd
  have hne : pending s.ctx s.arrive.ready s.active ≠ [] := by
    intro hnil
    rcases run_cases .srtn s.ctx s.arrive.ready s.active with ⟨-, hnone⟩ | ⟨c, -, hperm⟩
    · rw [hnone, Prod.mk.injEq] at hrun
      rw [hrun.2] at ha
      cases ha
    · exact absurd (hnil ▸ hperm).symm.eq_nil (List.cons_ne_nil _ _)
  obtain ⟨c, u, v, hsplit, hchosen, hmin, -⟩ :=
    run_split .srtn s.ctx s.arrive.ready s.active hne
  rw [hchosen, Prod.mk.injEq] at hrun
  obtain rfl : c = a := Option.some.inj (hrun.2.symm.trans ha)
  refine ⟨hmin, fun b hb => ?_⟩
  rw [hrun.1] at hb
  rw [hsplit]
  simp only [List.mem_append, List.mem_cons] at hb ⊢
  exact hb.imp_right .inr

/-- Within a slot: who is ready was ready before, or arrives and is not shorter. -/
theorem slot_shortest (hd : ¬ s.decides q) (hleads : Leads s) (hno : ¬ Overtaken q s)
    (ha : s.active = some a) (hb : b ∈ s.arrive.ready) (hpos : 0 < (s.ctx b).target) :
    (s.ctx a).target ≤ (s.ctx b).target := by
  rcases List.mem_append.1 hb with hready | harrived
  · exact hleads a ha b hready hpos
  · obtain ⟨hlist, hstart⟩ := List.mem_filter.1 harrived
    by_contra hlt
    exact hno ⟨hd, a, b, ha, hlist, by simpa using hstart, hpos, not_le.1 hlt⟩

/-- A pass that is not overtaken keeps the active thread in the lead. -/
theorem tick_leads (ht : 1 ≤ t) (hleads : Leads s) (hno : ¬ Overtaken q s) :
    Leads (s.tick .srtn t q) := by
  intro a ha b hb hpos
  rw [tick_target, if_pos ha]
  rw [tick_target] at hpos ⊢
  have hle : 0 < (s.ctx b).target → (s.ctx a).target ≤ (s.ctx b).target := by
    intro hpos'
    by_cases hd : s.decides q
    · obtain ⟨hmin, hready⟩ := decision_shortest hd ha
      exact hmin b (hready b hb)
    · rw [tick_active, scheduled_of_not_decides hd] at ha
      rw [tick_ready, scheduled_of_not_decides hd] at hb
      exact slot_shortest hd hleads hno ha hb hpos'
  split_ifs at hpos ⊢ <;> omega

/-- A pass that decides executes the shortest of all that compete. -/
theorem runsShortest_of_decides (hI : Inv threads t s) (hd : s.decides q) :
    RunsShortest threads t q s := by
  intro a ha b _ hb
  refine (decision_shortest hd ha).1 b ?_
  rcases mem_of_competes hI hb with hready | hactive
  · exact List.mem_append_left _ hready
  · exact List.mem_append_right _ (List.mem_filter.2
      ⟨Option.mem_toList.2 hactive, by simpa using hb.2.2⟩)

/-- Within a slot the active thread goes on, and it is the shortest unless it is overtaken. -/
theorem runsShortest_of_leads (hI : Inv threads t s) (hleads : Leads s) (hno : ¬ Overtaken q s) :
    RunsShortest threads t q s := by
  by_cases hd : s.decides q
  · exact runsShortest_of_decides hI hd
  · intro a ha b hne hb
    rw [tick_active, scheduled_of_not_decides hd] at ha
    rcases mem_of_competes hI hb with hready | hactive
    · exact slot_shortest hd hleads hno ha hready hb.2.2
    · exact absurd (Option.some.inj (hactive.symm.trans ha)) hne

/-- A shorter thread that arrives within a slot is not executed. -/
theorem not_runsShortest_of_overtaken (hI : Inv threads t s) (h : Overtaken q s) :
    ¬ RunsShortest threads t q s := by
  obtain ⟨hd, a, b, ha, hb, hstart, hpos, hlt⟩ := h
  intro hshort
  have hactive : (s.tick .srtn t q).active = some a := by
    rw [tick_active, scheduled_of_not_decides hd]
    exact ha
  have hne : b ≠ a := by
    rintro rfl
    exact lt_irrefl _ hlt
  have hle := hshort a hactive b hne ⟨hI.lt b (List.mem_append_left _ hb), hstart, hpos⟩
  omega

/-- A pass that decides executes the thread with the shortest remaining time, and every pass does if
and only if no pass sees a shorter thread arrive within a slot. -/
theorem runs_shortest_iff (t q : ℤ) (ht : 1 ≤ t) (threads : List Params) :
    (∀ s, Visits (step .srtn t q) (Sim.init threads q) s → s.goesOn q → s.decides q →
        RunsShortest threads t q s) ∧
      ((∀ s, Visits (step .srtn t q) (Sim.init threads q) s → s.goesOn q →
          RunsShortest threads t q s) ↔
        ∀ s, Visits (step .srtn t q) (Sim.init threads q) s → s.goesOn q → ¬ Overtaken q s) := by
  refine ⟨fun s hs _ hd => runsShortest_of_decides (visits_inv ht hs) hd, ?_, ?_⟩
  · intro h s hs hgo hover
    exact not_runsShortest_of_overtaken (visits_inv ht hs) hover (h s hs hgo)
  · intro h s hs hgo
    have hleads : ∀ s, Visits (step .srtn t q) (Sim.init threads q) s → Leads s := by
      intro s hs
      induction hs with
      | refl => exact fun a ha => nomatch ha
      | tail hvis hstep ih =>
        obtain ⟨hgo, rfl⟩ := step_eq_again.1 hstep
        exact tick_leads ht ih (h _ hvis hgo)
    exact runsShortest_of_leads (visits_inv ht hs) (hleads s hs) (h s hs hgo)

/-- Two threads that arrive together. -/
theorem runs_shortest_iff_two :
    (∀ s, Visits (step .srtn 1 5) (Sim.init [⟨1, 0, 10⟩, ⟨1, 0, 2⟩] 5) s → s.goesOn 5 →
        s.decides 5 → RunsShortest [⟨1, 0, 10⟩, ⟨1, 0, 2⟩] 1 5 s) ∧
      ((∀ s, Visits (step .srtn 1 5) (Sim.init [⟨1, 0, 10⟩, ⟨1, 0, 2⟩] 5) s → s.goesOn 5 →
          RunsShortest [⟨1, 0, 10⟩, ⟨1, 0, 2⟩] 1 5 s) ↔
        ∀ s, Visits (step .srtn 1 5) (Sim.init [⟨1, 0, 10⟩, ⟨1, 0, 2⟩] 5) s → s.goesOn 5 →
          ¬ Overtaken 5 s) :=
  runs_shortest_iff 1 5 (by decide) [⟨1, 0, 10⟩, ⟨1, 0, 2⟩]

/-- The second thread arrives at time 1 with 2 units of work, and the first one goes on with 9 units
left until its slot is over at time 5. -/
theorem not_runs_shortest_late :
    (∀ p ∈ [Params.mk 1 0 10, ⟨1, 1, 2⟩], p.valid) ∧
      ¬ ∀ s, Visits (step .srtn 1 5) (Sim.init [⟨1, 0, 10⟩, ⟨1, 1, 2⟩] 5) s → s.goesOn 5 →
        RunsShortest [⟨1, 0, 10⟩, ⟨1, 1, 2⟩] 1 5 s := by
  refine ⟨by decide, fun h => ?_⟩
  have hvisit : Visits (step .srtn 1 5) (Sim.init [⟨1, 0, 10⟩, ⟨1, 1, 2⟩] 5)
      ((Sim.init [⟨1, 0, 10⟩, ⟨1, 1, 2⟩] 5).tick .srtn 1 5) :=
    .single (if_pos (by decide))
  have hle := h _ hvisit (by decide) 0 rfl 1 (by decide) ⟨by decide, by decide, by decide⟩
  exact absurd hle (by decide)

end Sem3.Sched
