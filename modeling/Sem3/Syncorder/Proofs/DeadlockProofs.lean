import Sem3.Syncorder.Proofs.OrderProofs
import Mathlib.Tactic.Push

/-!
# Proofs: when the ordered output gets stuck

The turn is passed on by a chunk that is shorter than `sz`. A file that has no such chunk, because
it is empty or its length is a multiple of `sz`, keeps the turn for good, and the threads that have
something to write behind it wait forever.
-/

namespace Syncorder

open Monitor

variable {files : ℕ → List Char} {k : ℕ} {g g' : Shared} {p l : Local}

/-! ## The mutex -/

/-- Between `pthread_mutex_lock` and `pthread_mutex_unlock`. -/
def Pc.Inside : Pc → Prop
  | .turn | .wait | .outbuf | .buffer | .newline | .unlockOrder | .highest | .broadcast
  | .unlockHighest => True
  | _ => False

theorem disciplined (files : ℕ → List Char) :
    Disciplined (dump .order files) fun l => l.pc.Inside := by
  refine ⟨?_, ?_, ?_, ?_, ?_, ?_⟩
  · rintro ⟨pc, n, i, rest, inbuf⟩ f g h
    cases pc <;> simp only [dump, only, write, reduceCtorEq, if_true, if_false, Op.act.injEq] at h
    case read =>
      subst h
      cases hrest : rest.take sz <;> simp [Local.read, Local.goto, Pc.Inside, hrest]
    case turn =>
      subst h
      simp only
      split_ifs <;> simp [Local.goto, Pc.Inside]
    all_goals
      subst h
      simp [Local.goto, Pc.Inside]
  · rintro ⟨pc, n, i, rest, inbuf⟩ l h
    cases pc <;> simp only [dump, only, write, reduceCtorEq, if_true, if_false, Op.lock.injEq] at h
    all_goals
      subst h
      simp [Local.goto, Pc.Inside]
  · rintro ⟨pc, n, i, rest, inbuf⟩ l h
    cases pc <;>
      simp only [dump, only, write, reduceCtorEq, if_true, if_false, Op.unlock.injEq] at h
    case unlockOrder =>
      subst h
      split_ifs <;> simp [Local.goto, Pc.Inside]
    all_goals
      subst h
      simp [Local.goto, Pc.Inside]
  · rintro ⟨pc, n, i, rest, inbuf⟩ l h
    cases pc <;> simp only [dump, only, write, reduceCtorEq, if_true, if_false, Op.wait.injEq] at h
    subst h
    simp [Local.goto, Pc.Inside]
  · rintro ⟨pc, n, i, rest, inbuf⟩ l h
    cases pc <;>
      simp only [dump, only, write, reduceCtorEq, if_true, if_false, Op.broadcast.injEq] at h
    subst h
    simp [Local.goto, Pc.Inside]
  · rintro ⟨pc, n, i, rest, inbuf⟩ h
    cases pc <;> simp only [dump, only, write, reduceCtorEq, if_true, if_false] at h
    simp [Pc.Inside]

/-! ## Progress -/

/-- The number of steps that are left behind the next read, at most, but for the waiting loop. -/
def Pc.rank : Pc → ℕ
  | .number => 0
  | .lockFile => 3
  | .read => 2
  | .lockLine => 18
  | .lockOrder => 17
  | .turn | .wait => 16
  | .outbuf => 15
  | .buffer => 14
  | .newline => 13
  | .unlockOrder => 12
  | .lockHighest => 11
  | .highest => 10
  | .broadcast => 9
  | .unlockHighest => 8
  | .unlockLine => 7
  | .next => 6
  | .unlockFile => 1
  | .done => 0

/-- What a thread has left to do: what is not read yet, and the statements of the pass that it is
in. -/
def Local.work (l : Local) : ℕ := 20 * l.rest.length + l.pc.rank

/-- The thread is at the head of the waiting loop, which a wake-up leads back to. -/
def Local.spin (l : Local) : ℕ := if l.pc = .turn then 1 else 0

theorem work_read_lt (l : Local) (h : l.pc = .read) : l.read.work < l.work := by
  by_cases hrest : l.rest = []
  · rw [read_nil hrest]
    simp [Local.work, Local.goto, Pc.rank, h]
  · have hpos := List.length_pos_iff.2 hrest
    rw [read_of_ne_nil hrest]
    simp only [Local.work, Pc.rank, h, List.length_drop, sz]
    omega

/-- A step takes a number, or gets on with the file, or goes round the waiting loop. -/
theorem work_result (h : (dump .order files p).result g = some (g', l)) :
    p.pc = .number ∧ g'.n = g.n + 1 ∨
      g'.n = g.n ∧ (l.work < p.work ∨
        l.work = p.work ∧ Spins (dump .order files) Local.spin p l) := by
  rcases p with ⟨pc, n, i, rest, inbuf⟩
  cases pc <;> simp only [dump, only, write, Op.result, reduceCtorEq, if_true, if_false,
    Option.some.injEq, Prod.mk.injEq] at h
  case number =>
    obtain ⟨rfl, rfl⟩ := h
    exact .inl ⟨rfl, rfl⟩
  case read =>
    obtain ⟨rfl, rfl⟩ := h
    exact .inr ⟨rfl, .inl (work_read_lt _ rfl)⟩
  case turn =>
    obtain ⟨rfl, rfl⟩ := h
    refine .inr ⟨rfl, ?_⟩
    split_ifs
    · exact .inr ⟨rfl, .inr ⟨⟨_, rfl⟩, by simp [Local.spin, Local.goto]⟩⟩
    · exact .inl (by simp [Local.work, Local.goto, Pc.rank])
  case wait =>
    obtain ⟨rfl, rfl⟩ := h
    exact .inr ⟨rfl, .inr ⟨rfl, .inl rfl⟩⟩
  case unlockOrder =>
    obtain ⟨rfl, rfl⟩ := h
    refine .inr ⟨rfl, .inl ?_⟩
    split_ifs <;> simp [Local.work, Local.goto, Pc.rank]
  all_goals
    obtain ⟨rfl, rfl⟩ := h
    exact .inr ⟨rfl, .inl (by simp [Local.work, Local.goto, Pc.rank])⟩

/-- The numbers that have not been taken, and the work that is left to the threads. -/
def left (g : Shared) (p : Fin k → Local) : ℕ × ℕ := (k - g.n, ∑ t, (p t).work)

/-- What is left to do goes down, but for the waiting loop. -/
theorem progress (files : ℕ → List Char) (k : ℕ) :
    Progress (k := k) (dump .order files) (Ordered files)
      (Prod.Lex (· < ·) (· < ·)) left Local.spin 1 where
  spin_le p := by
    rw [Local.spin]
    split_ifs <;> omega
  inv _ _ _ _ _ hI hres := hI.result hres
  down g p t g' l hI hres := by
    have hle := (hI.result hres).numbered.le
    have hothers : ∀ u, u ≠ t → (Function.update p t l u).work = (p u).work := by
      intro u hu
      rw [Function.update_of_ne hu]
    rcases work_result hres with ⟨-, hg⟩ | ⟨hg, hlt | ⟨heq, hspin⟩⟩
    · exact .inl (.left _ _ (by omega))
    · refine .inl ?_
      rw [left, left, hg]
      refine .right _ (Finset.sum_lt_sum ?_ ⟨t, Finset.mem_univ t, by simpa using hlt⟩)
      intro u _
      by_cases hu : u = t
      · subst hu
        simpa using hlt.le
      · exact (hothers u hu).le
    · refine .inr ⟨?_, hspin⟩
      rw [left, left, hg]
      refine congrArg (Prod.mk _) (Finset.sum_congr rfl ?_)
      intro u _
      by_cases hu : u = t
      · subst hu
        simpa using heq
      · exact hothers u hu

/-! ## When the turn is passed on -/

/-- Whether a thread has passed the turn on, for the places where that can be told. -/
def Local.Passed (files : ℕ → List Char) (highest : ℕ) (l : Local) : Prop :=
  match l.pc with
  | .lockFile | .read | .unlockFile | .done =>
    (files l.n).length = sz * l.i + l.rest.length ∨ l.n < highest
  | .broadcast | .unlockHighest => l.n < highest
  | .unlockLine | .next => l.inbuf.length ≠ sz → l.n < highest
  | _ => True

theorem Local.Passed.mono {h h' : ℕ} (hp : p.Passed files h) (hle : h ≤ h') :
    p.Passed files h' := by
  rcases p with ⟨pc, n, i, rest, inbuf⟩
  cases pc <;> simp only [Local.Passed] at hp ⊢ <;> omega

theorem Local.Passed.result (hok : p.Ok files) (hp : p.Passed files g.highest)
    (hw : p.pc.Writing → p.n = g.highest)
    (h : (dump .order files p).result g = some (g', l)) : l.Passed files g'.highest := by
  rcases p with ⟨pc, n, i, rest, inbuf⟩
  cases pc <;> simp only [dump, only, write, Op.result, reduceCtorEq, if_true, if_false,
    Option.some.injEq, Prod.mk.injEq] at h
  case number =>
    obtain ⟨rfl, rfl⟩ := h
    exact .inl (by simp)
  case read =>
    obtain ⟨rfl, rfl⟩ := h
    by_cases hrest : rest = []
    · rw [read_nil hrest]
      exact hp
    · rw [read_of_ne_nil hrest]
      trivial
  case turn =>
    obtain ⟨rfl, rfl⟩ := h
    split_ifs <;> trivial
  case unlockOrder =>
    obtain ⟨rfl, rfl⟩ := h
    split_ifs with hsz
    · trivial
    · intro hne
      exact absurd ⟨trivial, hne⟩ hsz
  case highest =>
    obtain ⟨rfl, rfl⟩ := h
    have hn : n = g.highest := hw trivial
    exact hn ▸ Nat.lt_succ_self _
  case unlockHighest =>
    obtain ⟨rfl, rfl⟩ := h
    exact fun _ => hp
  case next =>
    obtain ⟨rfl, rfl⟩ := h
    by_cases hsz : inbuf.length = sz
    · have hlen := hok.length
      simp only [hsz] at hlen
      exact .inl (by simp only [hlen, Nat.mul_succ])
    · exact .inr (hp hsz)
  all_goals
    obtain ⟨rfl, rfl⟩ := h
    exact hp

/-- The files whose threads have passed the turn on end with a chunk that is not full. -/
structure Passing (files : ℕ → List Char) (g : Shared) (p : Fin k → Local) : Prop where
  ordered : Ordered files g p
  short : ∀ n < g.highest, ¬ sz ∣ (files n).length
  passed : ∀ t, (p t).Passed files g.highest

/-- The length of the file is no multiple of the size of the buffer if its last line is shorter. -/
theorem Local.InLine.not_dvd (h : p.InLine files) (hne : p.inbuf.length ≠ sz) :
    ¬ sz ∣ (files p.n).length := by
  have hle := h.le
  have hpos := h.pos
  rw [h.length, h.short hne, List.length_nil, Nat.add_zero, Nat.dvd_add_right (dvd_mul_right _ _)]
  intro hdvd
  have := Nat.le_of_dvd hpos hdvd
  omega

theorem highest_result (h : (dump .order files p).result g = some (g', l)) :
    g'.highest = g.highest ∨ p.pc = .highest ∧ g'.highest = g.highest + 1 := by
  rcases p with ⟨pc, n, i, rest, inbuf⟩
  cases pc <;> simp only [dump, only, write, Op.result, reduceCtorEq, if_true, if_false,
    Option.some.injEq, Prod.mk.injEq] at h
  case highest =>
    obtain ⟨rfl, rfl⟩ := h
    exact .inr ⟨rfl, rfl⟩
  all_goals
    obtain ⟨rfl, rfl⟩ := h
    exact .inl rfl

theorem Passing.result {p : Fin k → Local} {t : Fin k} (h : Passing files g p)
    (hres : (dump .order files (p t)).result g = some (g', l)) :
    Passing files g' (Function.update p t l) := by
  have hw := h.ordered.writing t
  have hstep := highest_result hres
  refine ⟨h.ordered.result hres, ?_, ?_⟩
  · rcases hstep with heq | ⟨hpc, heq⟩
    · rw [heq]
      exact h.short
    · intro n hn
      rw [heq, Nat.lt_succ_iff_lt_or_eq] at hn
      rcases hn with hlt | rfl
      · exact h.short n hlt
      · rw [← hw (by simp [hpc, Pc.Writing])]
        have hok := h.ordered.ok t
        simp only [Local.Ok, hpc] at hok
        exact hok.1.not_dvd hok.2
  · rw [Function.forall_update_iff p fun _ (q : Local) => q.Passed files g'.highest]
    refine ⟨(h.passed t).result (h.ordered.ok t) hw hres, ?_⟩
    intro u _
    exact (h.passed u).mono (by omega)

theorem passing_init : Passing files (init k).shared (init k).pos where
  ordered := ordered_init
  short n hn := absurd hn (Nat.not_lt_zero n)
  passed _ := trivial

/-! ## Who is awake -/

/-- A thread sleeps only if its number is not `highest`, or if a broadcast is under way. -/
structure Awake (s : State k Shared Local) : Prop where
  waiting : ∀ t, (s.threads t).status ≠ .ready → (s.pos t).pc = .turn
  wait : ∀ t, (s.pos t).pc = .wait → (s.pos t).n ≠ s.shared.highest
  asleep : ∀ t, (s.threads t).status = .asleep →
    (s.pos t).n ≠ s.shared.highest ∨ ∃ u, (s.pos u).pc = .broadcast

variable {s s' : State k Shared Local} {t : Fin k}

/-- The thread `t` has moved from a place that is not a broadcast. -/
theorem Awake.put (h : Awake s) {th : Thread Local} {o : Option (Fin k)} {g : Shared}
    (ht : (s.pos t).pc ≠ .broadcast) (hstatus : th.status ≠ .ready → th.pos.pc = .turn)
    (hwait : th.pos.pc = .wait → th.pos.n ≠ g.highest)
    (hasleep : th.status = .asleep → th.pos.n ≠ g.highest)
    (hg : g.highest = s.shared.highest ∨ th.pos.pc = .broadcast ∧
      ∀ u, u ≠ t → (s.pos u).pc ≠ .wait) :
    Awake { s.put t th with owner := o, shared := g } where
  waiting u hu := by
    by_cases hut : u = t
    · subst hut
      simpa [State.put, State.pos] using hstatus (by simpa [State.put] using hu)
    · simpa [State.put, State.pos, hut] using h.waiting u (by simpa [State.put, hut] using hu)
  wait u hu := by
    by_cases hut : u = t
    · subst hut
      simpa [State.put, State.pos] using hwait (by simpa [State.put, State.pos] using hu)
    · have hu' : (s.pos u).pc = .wait := by simpa [State.put, State.pos, hut] using hu
      rcases hg with hg | ⟨-, hno⟩
      · simpa [State.put, State.pos, hut, hg] using h.wait u hu'
      · exact absurd hu' (hno u hut)
  asleep u hu := by
    by_cases hut : u = t
    · subst hut
      left
      simpa [State.put, State.pos] using hasleep (by simpa [State.put] using hu)
    · rcases hg with hg | ⟨hb, -⟩
      · rcases h.asleep u (by simpa [State.put, hut] using hu) with hne | ⟨v, hv⟩
        · left
          simpa [State.put, State.pos, hut, hg] using hne
        · right
          have hvt : v ≠ t := by
            rintro rfl
            exact ht hv
          exact ⟨v, by simpa [State.put, State.pos, hvt] using hv⟩
      · exact .inr ⟨t, by simpa [State.put, State.pos] using hb⟩

/-- No access to the shared data is a broadcast. -/
theorem dump_act {f : Shared → Shared × Local} (h : dump .order files p = .act f) (g : Shared) :
    p.pc ≠ .broadcast ∧ ((f g).2.pc = .wait → (f g).2.n ≠ g.highest) ∧
      ((f g).1.highest = g.highest ∨ p.pc = .highest ∧ (f g).2.pc = .broadcast) := by
  rcases p with ⟨pc, n, i, rest, inbuf⟩
  cases pc <;> simp only [dump, only, write, reduceCtorEq, if_true, if_false, Op.act.injEq] at h
  case turn =>
    subst h
    refine ⟨by simp, ?_, .inl rfl⟩
    simp only
    split_ifs with hn
    · exact fun _ => hn
    · simp [Local.goto]
  case read =>
    subst h
    refine ⟨by simp, ?_, .inl rfl⟩
    cases hrest : rest.take sz <;> simp [Local.read, Local.goto, hrest]
  all_goals
    subst h
    simp [Local.goto]

theorem dump_lock (h : dump .order files p = .lock l) :
    p.pc ≠ .broadcast ∧ l.pc ≠ .wait := by
  rcases p with ⟨pc, n, i, rest, inbuf⟩
  cases pc <;> simp only [dump, only, write, reduceCtorEq, if_true, if_false, Op.lock.injEq] at h
  all_goals
    subst h
    simp [Local.goto]

theorem dump_unlock (h : dump .order files p = .unlock l) :
    p.pc ≠ .broadcast ∧ l.pc ≠ .wait := by
  rcases p with ⟨pc, n, i, rest, inbuf⟩
  cases pc <;> simp only [dump, only, write, reduceCtorEq, if_true, if_false, Op.unlock.injEq] at h
  case unlockOrder =>
    subst h
    split_ifs <;> simp [Local.goto]
  case unlockHighest =>
    subst h
    simp [Local.goto]

theorem dump_wait (h : dump .order files p = .wait l) : p.pc = .wait ∧ l = p.goto .turn := by
  rcases p with ⟨pc, n, i, rest, inbuf⟩
  cases pc <;> simp only [dump, only, write, reduceCtorEq, if_true, if_false, Op.wait.injEq] at h
  exact ⟨rfl, h.symm⟩

theorem dump_broadcast (h : dump .order files p = .broadcast l) :
    l = p.goto .unlockHighest := by
  rcases p with ⟨pc, n, i, rest, inbuf⟩
  cases pc <;>
    simp only [dump, only, write, reduceCtorEq, if_true, if_false, Op.broadcast.injEq] at h
  exact h.symm

theorem Awake.broadcast (h : Awake s) {l : Local} (hl : l.pc = .unlockHighest) :
    Awake (s.wakeAll.put t ⟨.ready, l⟩) where
  waiting u hu := by
    by_cases hut : u = t
    · subst hut
      simp [State.put] at hu
    · have hpos : (s.wakeAll.put t ⟨.ready, l⟩).pos u = s.pos u := by
        rw [State.put_pos, Function.update_of_ne hut, State.wakeAll_pos]
      rw [hpos]
      apply h.waiting
      intro hready
      exact hu (by simp [State.put, State.wakeAll, hut, Thread.wakeUp, hready])
  wait u hu := by
    by_cases hut : u = t
    · subst hut
      rw [State.put_pos, Function.update_self, hl] at hu
      cases hu
    · rw [State.put_pos, Function.update_of_ne hut, State.wakeAll_pos] at hu ⊢
      exact h.wait u hu
  asleep u hu := by
    by_cases hut : u = t
    · subst hut
      simp [State.put] at hu
    · simp only [State.put, Function.update_of_ne hut, State.wakeAll, Thread.wakeUp] at hu
      split_ifs at hu with hs
      exact absurd hu hs

/-- Every step keeps the threads awake whose turn it is. -/
theorem Awake.fires (h : Awake s) (howned : Owned (fun l : Local => l.pc.Inside) s)
    (hs : Fires (dump .order files) s s') : Awake s' := by
  cases hs with
  | @act t f ht hop =>
    obtain ⟨hb, hwait, hhighest⟩ := dump_act hop s.shared
    refine h.put hb (fun hn => absurd rfl hn) ?_ (fun hs => absurd hs (by simp)) ?_
    · intro hpc
      rcases hhighest with heq | ⟨-, hpc'⟩
      · rw [heq]
        exact hwait hpc
      · rw [hpc'] at hpc
        cases hpc
    · refine hhighest.imp_right ?_
      rintro ⟨hpc, hpc'⟩
      refine ⟨hpc', ?_⟩
      intro u hut hu
      have hready : (s.threads u).status = .ready := by
        by_contra hne
        rw [h.waiting u hne] at hu
        cases hu
      exact hut (howned.unique hready ht (by simp [hu, Pc.Inside]) (by simp [hpc, Pc.Inside]))
  | lock ht hop =>
    obtain ⟨hb, hwait⟩ := dump_lock hop
    exact h.put hb (fun hn => absurd rfl hn) (fun hpc => absurd hpc hwait)
      (fun hs => absurd hs (by simp)) (.inl rfl)
  | unlock ht hop =>
    obtain ⟨hb, hwait⟩ := dump_unlock hop
    exact h.put hb (fun hn => absurd rfl hn) (fun hpc => absurd hpc hwait)
      (fun hs => absurd hs (by simp)) (.inl rfl)
  | @wait t l ht hop =>
    obtain ⟨hpc, rfl⟩ := dump_wait hop
    exact h.put (by simp [hpc]) (fun _ => rfl) (by simp [Local.goto])
      (fun _ => h.wait t hpc) (.inl rfl)
  | broadcast ht hop =>
    obtain rfl := dump_broadcast hop
    exact h.broadcast rfl
  | @resume t ht ho =>
    have hpc := h.waiting t (by simp [ht])
    exact h.put (by simp [hpc]) (fun hn => absurd rfl hn) (by simp [hpc])
      (fun hs => absurd hs (by simp)) (.inl rfl)
  | @wake t ht =>
    have hpc := h.waiting t (by simp [ht])
    exact h.put (by simp [hpc]) (fun _ => hpc) (by simp [hpc])
      (fun hs => absurd hs (by simp)) (.inl rfl)

/-! ## Deadlock -/

/-- What holds in every state of a run. -/
structure Reached (files : ℕ → List Char) (s : State k Shared Local) : Prop where
  passing : Passing files s.shared s.pos
  owned : Owned (fun l : Local => l.pc.Inside) s
  awake : Awake s

theorem awake_init : Awake (init k) where
  waiting t ht := absurd rfl ht
  wait t ht := absurd ht (by simp [init, State.init, State.pos, Local.start])
  asleep t ht := absurd ht (by simp [init, State.init])

variable {steps : List (State k Shared Local × Move k)}

/-- The invariants hold in every state of a run. -/
theorem reached (h : Run (step (dump .order files)) (init k) steps s) : Reached files s := by
  have hinit : Owned (fun l : Local => l.pc.Inside) (init k) :=
    owned_init _ (by simp [Local.start, Pc.Inside])
  have hawake : Owned (fun l : Local => l.pc.Inside) s ∧ Awake s := by
    refine h.always (I := fun s => Owned (fun l : Local => l.pc.Inside) s ∧ Awake s)
      ⟨hinit, awake_init⟩ ?_
    intro _ _ _ hI hs
    exact ⟨hI.1.fires (disciplined files) (Monitor.fires hs), hI.2.fires hI.1 (Monitor.fires hs)⟩
  exact ⟨pos_invariant h passing_init fun _ _ _ _ _ hI hres => hI.result hres,
    hawake.1, hawake.2⟩

theorem dump_exit : dump .order files p = .exit ↔ p.pc = .done := by
  rcases p with ⟨pc, n, i, rest, inbuf⟩
  cases pc <;> simp [dump, only, write]

/-- The threads that have not finished when nothing goes on are those that wait for their turn. -/
theorem Reached.stuck_iff (h : Reached files s) :
    Stuck (dump .order files) s ↔ ∀ t, Unfinished s t → Waits s t := by
  rw [Monitor.stuck_iff (disciplined files) h.owned]
  refine forall_congr' fun t => ?_
  rw [Ended, dump_exit, Unfinished, Waits]
  constructor
  · rintro (⟨-, hdone⟩ | hasleep) hne
    · exact absurd hdone hne
    · exact hasleep
  · intro himp
    by_cases hdone : (s.pos t).pc = .done
    · refine .inl ⟨?_, hdone⟩
      by_contra hne
      rw [h.awake.waiting t hne] at hdone
      cases hdone
    · exact .inr (himp hdone)

/-- Where nothing goes on, every thread is done or asleep. -/
theorem Reached.pc_of_stuck (h : Reached files s) (hstuck : Stuck (dump .order files) s)
    (t : Fin k) : (s.pos t).pc = .done ∨ (s.threads t).status = .asleep ∧ (s.pos t).pc = .turn := by
  by_cases hdone : (s.pos t).pc = .done
  · exact .inl hdone
  · have hasleep := h.stuck_iff.1 hstuck t hdone
    exact .inr ⟨hasleep, h.awake.waiting t (by rw [hasleep]; simp)⟩

theorem whole_eq_nil {n : ℕ} : whole files n = [] ↔ files n = [] := by
  constructor
  · intro h
    by_contra hne
    rw [whole, linesFrom_of_ne_nil _ _ hne] at h
    simp [Line.writes] at h
  · intro h
    rw [whole, h, linesFrom_nil]
    rfl

/-- The turn is with a thread that has finished, and a thread behind it has something to write. -/
theorem Reached.dvd_of_stuck (h : Reached files s) (hstuck : Stuck (dump .order files) s)
    {t : Fin k} (ht : Unfinished s t) :
    ∃ i j, i < j ∧ j < k ∧ sz ∣ (files i).length ∧ files j ≠ [] := by
  have hord := h.passing.ordered
  obtain ⟨a, hreach, ha⟩ := hord.turns
  have hinv := Turns.inv hreach
  obtain ⟨hasleep, hturn⟩ := (h.pc_of_stuck hstuck t).resolve_left ht
  have hstart : ∀ u, (s.pos u).pc ≠ .number := by
    intro u
    rcases h.pc_of_stuck hstuck u with hpc | ⟨-, hpc⟩ <;> simp [hpc]
  have hwait : ∀ u, (s.threads u).status = .asleep → (s.pos u).n ≠ s.shared.highest := by
    intro u hu
    refine (h.awake.asleep u hu).resolve_right ?_
    rintro ⟨v, hv⟩
    rcases h.pc_of_stuck hstuck v with hpc | ⟨-, hpc⟩ <;> simp [hpc] at hv
  have hpending : a.todo (s.pos t).n ≠ [] := by
    rw [ha.todo t (hstart t), Local.pending, hturn]
    simp [Line.writes]
  have hlt : s.shared.highest < (s.pos t).n := by
    rw [← ha.turn]
    refine lt_of_le_of_ne ?_ (ha.turn ▸ (hwait t hasleep).symm)
    by_contra hlt
    exact hpending (hinv.before _ (Nat.lt_of_not_le hlt))
  have hnum := hord.numbered.lt t (hstart t)
  obtain ⟨u, hu, hun⟩ := hord.numbered.taken _ (hlt.trans hnum)
  have hdone : (s.pos u).pc = .done := by
    refine (h.pc_of_stuck hstuck u).resolve_right ?_
    rintro ⟨hs, -⟩
    exact hwait u hs hun
  refine ⟨s.shared.highest, (s.pos t).n, hlt, hnum.trans_le hord.numbered.le, ?_, ?_⟩
  · have hok := hord.ok u
    have hpassed := h.passing.passed u
    simp only [Local.Ok, Local.Passed, hdone, hun] at hok hpassed
    rw [hpassed.resolve_right (lt_irrefl _), hok, List.length_nil, Nat.add_zero]
    exact dvd_mul_right _ _
  · rw [← ha.turn] at hlt
    rwa [hinv.after _ hlt, Ne, whole_eq_nil] at hpending

/-- A file that keeps the turn in front of one that is not empty leaves a thread behind. -/
theorem Reached.exists_unfinished (h : Reached files s) {i j : ℕ} (hij : i < j) (hj : j < k)
    (hdvd : sz ∣ (files i).length) (hne : files j ≠ []) : ∃ t, Unfinished s t := by
  by_contra! hall
  have hord := h.passing.ordered
  obtain ⟨a, hreach, ha⟩ := hord.turns
  have hdone : ∀ t, (s.pos t).pc = .done := fun t => not_not.1 (hall t)
  have hstart : ∀ t, (s.pos t).pc ≠ .number := by
    intro t
    simp [hdone t]
  have hk : k ≤ s.shared.n := by
    have hinj : Function.Injective fun t : Fin k =>
        (⟨(s.pos t).n, hord.numbered.lt t (hstart t)⟩ : Fin s.shared.n) := by
      intro t u htu
      exact hord.numbered.inj t u (hstart t) (hstart u) (Fin.mk.inj htu)
    simpa using Fintype.card_le_of_injective _ hinj
  obtain ⟨t, ht, htn⟩ := hord.numbered.taken j (hj.trans_le hk)
  have htodo := ha.todo t ht
  rw [htn, Local.pending, hdone t] at htodo
  have hle : j ≤ s.shared.highest := by
    by_contra hlt
    rw [Nat.not_le, ← ha.turn] at hlt
    rw [(Turns.inv hreach).after j hlt, whole_eq_nil] at htodo
    exact hne htodo
  exact h.passing.short i (hij.trans_le hle) hdvd

/-- The threads never get stuck exactly if no file whose length is a multiple of `sz` stands before
one that is not empty. When they are stuck, all that have not finished wait for their turn. -/
theorem order_never_stuck_iff (files : ℕ → List Char) (k : ℕ) :
    ((∀ steps s, Run (step (dump .order files)) (init k) steps s →
        (∃ t, Unfinished s t) → Enabled .order files s) ↔
      ∀ i j, i < j → j < k → sz ∣ (files i).length → files j = []) ∧
    ∀ steps s, Run (step (dump .order files)) (init k) steps s →
      (¬ Enabled .order files s ↔ ∀ t, Unfinished s t → Waits s t) := by
  have hstuck : ∀ s : State k Shared Local,
      ¬ Enabled .order files s ↔ Stuck (dump .order files) s := by
    intro s
    simp [Enabled, Stuck]
  constructor
  · constructor
    · intro hlive i j hij hj hdvd
      by_contra hne
      obtain ⟨steps, s, hrun, hs⟩ := exists_stuck
        (WellFounded.prod_lex wellFounded_lt wellFounded_lt) (progress files k) .init ordered_init
      have hunfinished := (reached hrun).exists_unfinished hij hj hdvd hne
      exact (hstuck s).2 hs (hlive steps s hrun hunfinished)
    · rintro hcond steps s hrun ⟨t, ht⟩
      by_contra hnot
      obtain ⟨i, j, hij, hj, hdvd, hne⟩ := (reached hrun).dvd_of_stuck ((hstuck s).1 hnot) ht
      exact hne (hcond i j hij hj hdvd)
  · intro steps s hrun
    rw [hstuck, (reached hrun).stuck_iff]

/-- Two threads, the first file is empty, the second has one byte: thread 1 waits forever. -/
theorem order_stuck_behind_empty_file :
    ∃ steps s, Run (step (dump .order fun n => if n = 1 then ['a'] else [])) (init 2) steps s ∧
      Unfinished s 1 ∧ ¬ Enabled .order (fun n => if n = 1 then ['a'] else []) s ∧
      ∀ t, Unfinished s t → Waits s t := by
  let files : ℕ → List Char := fun n => if n = 1 then ['a'] else []
  let moves : List (Move 2) := [0, 0, 0, 0, 1, 1, 1, 1, 1, 1, 1].map .run
  have hsome : (moves.foldlM (step (dump .order files)) (init 2)).isSome := by decide
  obtain ⟨s, hs⟩ := Option.isSome_iff_exists.1 hsome
  obtain ⟨steps, hrun⟩ := Run.exists_of_foldlM hs
  have hpos : (moves.foldlM (step (dump .order files)) (init 2)).map
      (fun s => ((s.pos 0).pc, (s.pos 1).pc, (s.threads 1).status)) =
      some (.done, .turn, .asleep) := by decide
  rw [hs, Option.map_some, Option.some.injEq, Prod.mk.injEq, Prod.mk.injEq] at hpos
  obtain ⟨hdone, hturn, hasleep⟩ := hpos
  have hwaits : ∀ t, Unfinished s t → Waits s t :=
    Fin.forall_fin_two.2 ⟨fun ht => absurd hdone ht, fun _ => hasleep⟩
  refine ⟨steps, s, hrun, by simp [Unfinished, hturn], ?_, hwaits⟩
  have hstuck := (reached hrun).stuck_iff.2 hwaits
  rintro ⟨t, ht⟩
  exact ht (hstuck t)

end Syncorder
