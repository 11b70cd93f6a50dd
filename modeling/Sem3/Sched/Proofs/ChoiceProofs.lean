import Sem3.Sched.Proofs.TickProofs

/-!
# Proofs: which thread is chosen

`list_getMax` with one of the two comparators gives the first node among those with the smallest
value, so `prr` chooses the first thread of the best priority and `srtn` the first one of those with
the least work left, as `rr` chooses the first thread at all.
-/

namespace Sem3.Sched

variable {alg : Algo} {t q : ℤ} {s : Sim} {ctx : ℕ → Threadcontext} {f : Threadcontext → ℤ}
  {pre rest l ready : List ℕ} {active : Option ℕ} {h : ℕ × ℕ} {a b : ℕ}

/-- Both comparators prefer the smaller value of a field. -/
def smaller (f : Threadcontext → ℤ) (a b : Threadcontext) : ℤ := if f a < f b then 1 else -1

theorem cmpTarget_eq : cmpTarget = smaller Threadcontext.target := rfl

theorem cmpPrio_eq : cmpPrio = smaller Threadcontext.prio := rfl

/-- The node `h` of `l`, position and thread, is the first one with the smallest value. -/
structure FirstMin (ctx : ℕ → Threadcontext) (f : Threadcontext → ℤ) (l : List ℕ) (h : ℕ × ℕ) :
    Prop where
  getElem? : l[h.1]? = some h.2
  le : ∀ b ∈ l, f (ctx h.2) ≤ f (ctx b)
  lt : ∀ b ∈ l.take h.1, f (ctx h.2) < f (ctx b)

theorem FirstMin.lt_length (hmin : FirstMin ctx f l h) : h.1 < l.length :=
  (List.getElem?_eq_some_iff.1 hmin.getElem?).1

/-- One pass of the loop of `list_getMax`. -/
theorem FirstMin.snoc (hmin : FirstMin ctx f pre h) (next : ℕ) :
    FirstMin ctx f (pre ++ [next])
      (if smaller f (ctx next) (ctx h.2) > 0 then (pre.length, next) else h) := by
  have hlt := hmin.lt_length
  by_cases hless : f (ctx next) < f (ctx h.2)
  · have hall : ∀ b ∈ pre, f (ctx next) < f (ctx b) := fun b hb =>
      lt_of_lt_of_le hless (hmin.le b hb)
    rw [smaller, if_pos hless, if_pos (by decide)]
    refine ⟨by simp, ?_, ?_⟩
    · simp only [List.mem_append, List.mem_singleton]
      rintro b (hb | rfl)
      · exact (hall b hb).le
      · exact le_refl _
    · rw [List.take_left]
      exact hall
  · rw [smaller, if_neg hless, if_neg (by decide)]
    refine ⟨by rw [List.getElem?_append_left hlt, hmin.getElem?], ?_, ?_⟩
    · simp only [List.mem_append, List.mem_singleton]
      rintro b (hb | rfl)
      · exact hmin.le b hb
      · exact not_lt.1 hless
    · rw [List.take_append_of_le_length hlt.le]
      exact hmin.lt

/-- The loop goes on with the first one of the smallest threads. -/
theorem FirstMin.getMaxLoop (hmin : FirstMin ctx f pre h) (rest : List ℕ) :
    FirstMin ctx f (pre ++ rest) (getMaxLoop ctx (smaller f) rest pre.length h) := by
  induction rest generalizing pre h with
  | nil =>
    rw [List.append_nil]
    exact hmin
  | cons next rest ih =>
    have hnext := ih (hmin.snoc next)
    rwa [List.length_append, List.append_assoc] at hnext

/-- `list_getMax` finds the first one of the smallest threads. -/
theorem firstMin_listGetMax (ctx : ℕ → Threadcontext) (f : Threadcontext → ℤ) (first : ℕ)
    (rest : List ℕ) : ∃ a, FirstMin ctx f (first :: rest)
      (listGetMax ctx (smaller f) first rest, a) := by
  have hfirst : FirstMin ctx f [first] (0, first) := ⟨rfl, by simp, by simp⟩
  have hself : smaller f (ctx first) (ctx first) = -1 := if_neg (lt_irrefl _)
  have hloop := hfirst.getMaxLoop rest
  refine ⟨(Sched.getMaxLoop ctx (smaller f) rest 1 (0, first)).2, ?_⟩
  rw [listGetMax, Sched.getMaxLoop, hself]
  exact hloop

/-! ## The choice of an algorithm -/

/-- The value by which an algorithm chooses; for `rr` all threads are alike. -/
def Algo.key : Algo → Threadcontext → ℤ
  | .rr => fun _ => 0
  | .prr => Threadcontext.prio
  | .srtn => Threadcontext.target

theorem firstMin_head (ctx : ℕ → Threadcontext) (first : ℕ) (rest : List ℕ) :
    FirstMin ctx Algo.rr.key (first :: rest) (0, first) :=
  ⟨rfl, fun _ _ => le_refl _, by simp⟩

/-- The thread chosen comes behind a part `u` of the list without a thread as good as it. -/
theorem run_split (alg : Algo) (ctx : ℕ → Threadcontext) (ready : List ℕ) (active : Option ℕ)
    (hne : pending ctx ready active ≠ []) :
    ∃ a u v, pending ctx ready active = u ++ a :: v ∧ alg.run ctx ready active = (u ++ v, some a) ∧
      (∀ b ∈ pending ctx ready active, alg.key (ctx a) ≤ alg.key (ctx b)) ∧
      ∀ b ∈ u, alg.key (ctx a) < alg.key (ctx b) := by
  have hpick : ∀ choose : ℕ → List ℕ → ℕ,
      (∀ first rest, ∃ a, FirstMin ctx alg.key (first :: rest) (choose first rest, a)) →
      ∃ a u v, pending ctx ready active = u ++ a :: v ∧
        reschedule choose ctx ready active = (u ++ v, some a) ∧
        (∀ b ∈ pending ctx ready active, alg.key (ctx a) ≤ alg.key (ctx b)) ∧
        ∀ b ∈ u, alg.key (ctx a) < alg.key (ctx b) := by
    intro choose hchoose
    rw [reschedule_eq]
    cases hp : pending ctx ready active with
    | nil => exact absurd hp hne
    | cons first rest =>
      obtain ⟨a, hmin⟩ := hchoose first rest
      have hlt := hmin.lt_length
      have ha : (first :: rest)[choose first rest] = a :=
        (List.getElem?_eq_some_iff.1 hmin.getElem?).2
      refine ⟨a, (first :: rest).take (choose first rest),
        (first :: rest).drop (choose first rest + 1), ?_, ?_, hmin.le, hmin.lt⟩
      · rw [← ha, List.getElem_cons_drop, List.take_append_drop]
      · rw [pick, hmin.getElem?, List.eraseIdx_eq_take_drop_succ]
  cases alg with
  | rr => exact hpick (fun _ _ => 0) fun first rest => ⟨first, firstMin_head ctx first rest⟩
  | prr =>
    refine hpick (listGetMax ctx cmpPrio) ?_
    rw [cmpPrio_eq]
    exact firstMin_listGetMax ctx Threadcontext.prio
  | srtn =>
    refine hpick (listGetMax ctx cmpTarget) ?_
    rw [cmpTarget_eq]
    exact firstMin_listGetMax ctx Threadcontext.target

end Sem3.Sched
