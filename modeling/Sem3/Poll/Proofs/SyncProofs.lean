import Sem3.Poll.Proofs.EventProofs
import Mathlib.Data.List.Nodup
import Mathlib.Data.List.Range

/-!
# Proofs: when the two tables agree

As long as there is a free entry of `sds` for every client that is reported, the clients that are
watched are those in the list. Without one, `addSd` fails and the client is in the list only: it is
missed until its connection times out.
-/

namespace Sem3.Poll

variable {ls : Listeners} {rd : Round} {s s' : Server} {sd : ℤ} {service : Service}
  {revents : ℕ → Revents} {i : ℕ}

/-- The tables are in step if the array watches the clients of the list. -/
theorem synced_iff_perm (h : Wired ls s) : Synced s ↔ s.watched.Perm s.clients := by
  constructor
  · intro hs
    exact (List.perm_ext_iff_of_nodup hs.watched_nodup hs.clients_nodup).2 hs.same
  · intro hp
    exact
      { same := fun _ => hp.mem_iff
        watched_nodup := hp.nodup_iff.2 h.nodup
        clients_nodup := h.nodup
        opened := fun fd hfd => hp.mem_iff.2 (h.opened.mem_iff.1 hfd) }

/-- A connection of the list that `poll` does not watch. -/
def Unwatched (s : Server) (c : Connection) : Prop := c ∈ s.conns ∧ c.sd ∉ s.watched

/-- There is one that has not timed out. -/
def Missed (s : Server) : Prop := ∃ c, 0 < c.timeout ∧ Unwatched s c

/-- A client that is not watched is in the list only. -/
theorem Missed.not_synced (h : Missed s) : ¬ Synced s := by
  obtain ⟨c, -, hmem, hmiss⟩ := h
  exact fun hs => hmiss ((hs.same c.sd).2 (List.mem_map_of_mem hmem))

/-! ## The tables agree -/

/-- `accept` keeps the tables in step if there is a free entry. -/
theorem synced_accepted (h : Wired ls s) (hs : Synced s) (hsd : Fresh ls s sd)
    (hfree : 0 < s.free) : Synced (s.accepted sd service) := by
  rw [synced_iff_perm (wired_accepted h hsd), accepted_clients]
  have hp := (synced_iff_perm h).1 hs
  have hcons : (s.accepted sd service).watched.Perm (sd :: s.clients) :=
    (accepted_watched h hsd.1 hfree).trans (hp.cons sd)
  exact hcons.trans (List.perm_append_singleton sd s.clients).symm

theorem synced_closed (h : Wired ls s) (hs : Synced s) (hsd : sd ∈ s.clients) :
    Synced (s.closed sd) := by
  rw [synced_iff_perm (wired_closed h hsd), closed_clients]
  exact (closed_watched h hsd).trans (((synced_iff_perm h).1 hs).erase sd)

theorem synced_received (h : Wired ls s) (hs : Synced s) : Synced (s.received sd) := by
  rw [synced_iff_perm (wired_received h), received_clients]
  exact (synced_iff_perm h).1 hs

theorem synced_polled (h : Wired ls s) (hs : Synced s) : Synced (s.polled rd) := by
  rw [synced_iff_perm (wired_polled h), polled_clients]
  exact (synced_iff_perm h).1 hs

/-- The entry of a client keeps the tables in step. -/
theorem synced_client (h : Wired ls s) (hs : Synced s) (hi : serviceCount ≤ i)
    (hstep : handle ls rd revents s i = some s') : Synced s' := by
  rcases client_cases h hi hstep with rfl | ⟨fd, -, hmem, rfl | rfl⟩
  · exact hs
  · exact synced_closed h hs hmem
  · exact synced_received h hs

theorem synced_sweep {c : Connection} (h : Wired ls s) (hs : Synced s)
    (hstep : sweep rd s c = some s') : Synced s' := by
  rcases sweep_cases hstep with ⟨-, rfl⟩ | ⟨-, hmem, rfl⟩
  · exact hs
  · exact synced_closed h hs hmem

/-! ## A client is missed -/

/-- A client that is accepted without a free entry is missed. -/
theorem missed_accepted_of_full (h : Wired ls s) (hsd : Fresh ls s sd) (hfull : s.free = 0) :
    Missed (s.accepted sd service) := by
  have hnew : ⟨sd, connTimeout, service⟩ ∈ (s.accepted sd service).conns := by
    simp [Server.accepted]
  refine ⟨_, by show (0 : ℤ) < connTimeout; decide, hnew, fun hmem => ?_⟩
  rw [accepted_watched_of_full h hfull] at hmem
  refine hsd.2 (List.mem_cons_of_mem _ (List.mem_cons_of_mem _ ?_))
  exact h.opened.mem_iff.2 (h.watched.subset hmem)

/-- A client that is not watched is not watched behind `accept`, either. -/
theorem unwatched_accepted {c : Connection} (h : Wired ls s) (hc : Unwatched s c)
    (hsd : Fresh ls s sd) : Unwatched (s.accepted sd service) c := by
  obtain ⟨hmem, hmiss⟩ := hc
  refine ⟨List.mem_append_left _ hmem, fun hwatched => hmiss ?_⟩
  by_cases hfree : 0 < s.free
  · apply (List.mem_cons.1 ((accepted_watched h hsd.1 hfree).mem_iff.1 hwatched)).resolve_left
    intro heq
    refine hsd.2 (List.mem_cons_of_mem _ (List.mem_cons_of_mem _ (h.opened.mem_iff.2 ?_)))
    rw [← heq]
    exact List.mem_map_of_mem hmem
  · rwa [accepted_watched_of_full h (by omega)] at hwatched

theorem unwatched_closed {c : Connection} (h : Wired ls s) (hc : Unwatched s c)
    (hsd : sd ∈ s.clients) (hne : c.sd ≠ sd) : Unwatched (s.closed sd) c := by
  obtain ⟨hmem, hmiss⟩ := hc
  refine ⟨(List.mem_eraseP_of_neg (by simpa using hne)).2 hmem, fun hwatched => hmiss ?_⟩
  exact List.mem_of_mem_erase ((closed_watched h hsd).mem_iff.1 hwatched)

theorem unwatched_handle {c : Connection} (h : Wired ls s) (hc : Unwatched s c)
    (hstep : handle ls rd revents s i = some s') : Unwatched s' c := by
  by_cases hi : i < serviceCount
  · rcases listener_cases h hi hstep with ⟨-, rfl⟩ | ⟨-, sd, service, hfresh, rfl⟩
    · exact hc
    · exact unwatched_accepted h hc hfresh
  · rcases client_cases h (not_lt.1 hi) hstep with rfl | ⟨fd, hfd, hmem, rfl | rfl⟩
    · exact hc
    · exact unwatched_closed h hc hmem fun heq => hc.2 (heq ▸ hfd)
    · exact ⟨mem_resetTimeout_of_ne hc.1 fun heq => hc.2 (heq ▸ hfd), hc.2⟩

/-- A client that is missed stays missed until the sweep. -/
theorem missed_loop {l : List ℕ} (h : Wired ls s) (hm : Missed s)
    (hs : l.foldlM (handle ls rd revents) s = some s') : Missed s' := by
  obtain ⟨c, hpos, hc⟩ := hm
  refine ⟨c, hpos, ?_⟩
  exact (handle_invariant (I := (Unwatched · c)) h hc hs fun _ _ _ _ => unwatched_handle).2

/-- A client that has not timed out is still missed after the loop over `conns`. -/
theorem missed_sweep (h : Wired ls s) (hm : Missed s)
    (hs : s.conns.foldlM (sweep rd) s = some s') : Missed s' := by
  obtain ⟨c, hpos, hc⟩ := hm
  have hinj := List.inj_on_of_nodup_map h.nodup
  have hmem := hc.1
  refine ⟨c, hpos, ?_⟩
  refine (sweep_invariant (I := (Unwatched · c)) h hc hs fun m d hd m' h hc hstep => ?_).2
  rcases sweep_cases hstep with ⟨-, rfl⟩ | ⟨hle, hclient, rfl⟩
  · exact hc
  · apply unwatched_closed h hc hclient
    intro heq
    rw [hinj hmem hd heq] at hpos
    omega

/-! ## One pass -/

/-- The listening sockets are served as long as there are free entries. -/
theorem listeners_cases {l : List ℕ} (hl : ∀ i ∈ l, i < serviceCount) (h : Wired ls s)
    (hs : Synced s) (hstep : l.foldlM (handle ls rd revents) s = some s') :
    ((l.countP fun i => (revents i).pollin) ≤ s.free → Synced s') ∧
      (s.free < (l.countP fun i => (revents i).pollin) → Missed s') := by
  induction l generalizing s with
  | nil => exact ⟨fun _ => Option.some.inj hstep ▸ hs, fun hlt => absurd hlt (Nat.not_lt_zero _)⟩
  | cons i l ih =>
    obtain ⟨m, hm, hrest⟩ := Run.foldlM_cons_eq_some.1 hstep
    have hl' : ∀ j ∈ l, j < serviceCount := fun j hj => hl j (List.mem_cons_of_mem i hj)
    rcases listener_cases h (hl i List.mem_cons_self) hm with
      ⟨hin, rfl⟩ | ⟨hin, sd, service, hfresh, rfl⟩
    · rw [List.countP_cons_of_neg (by simp [hin])]
      exact ih hl' h hs hrest
    · rw [List.countP_cons_of_pos (by simp [hin])]
      have hwired : Wired ls (s.accepted sd service) := wired_accepted h hfresh
      by_cases hfree : 0 < s.free
      · have hcount : (s.accepted sd service).free + 1 = s.free := accepted_free h hfresh.1 hfree
        obtain ⟨hroom, hfull⟩ := ih hl' hwired (synced_accepted h hs hfresh hfree) hrest
        exact ⟨fun hle => hroom (by omega), fun hlt => hfull (by omega)⟩
      · have hmissed : Missed (s.accepted sd service) :=
          missed_accepted_of_full h hfresh (by omega)
        exact ⟨fun hle => absurd hle (by omega), fun _ => missed_loop hwired hmissed hrest⟩

theorem reported_listener (h : Wired ls s) (hi : i < serviceCount) :
    rd.reported s.sds i = rd.revents i := if_neg (not_lt.2 (h.listener hi).1)

/-- A pass keeps the tables in step if and only if there is room for the clients that arrive. -/
theorem step_synced_iff (h : Wired ls s) (hs : Synced s) (hstep : step ls s rd = some s') :
    Synced s' ↔ Room s rd := by
  obtain ⟨-, -, m, hm, hsweep⟩ := step_eq_some hstep
  -- the entries of the listening sockets come first
  rw [show maxConn + serviceCount = serviceCount + maxConn from rfl, List.range_add] at hm
  obtain ⟨k, hk, hm⟩ := Run.foldlM_append_eq_some.1 hm
  have hkw : Wired ls k := wired_loop (wired_polled h) hk
  obtain ⟨hroom, hfull⟩ := listeners_cases (fun i hi => List.mem_range.1 hi) (wired_polled h)
    (synced_polled h hs) hk
  have hcount : ((List.range serviceCount).countP fun i => (rd.reported s.sds i).pollin) =
      rd.arrivals :=
    List.countP_congr fun i hi => by rw [reported_listener h (List.mem_range.1 hi)]
  rw [hcount] at hroom hfull
  constructor
  · intro hs'
    by_contra hlt
    have hmissed := missed_loop hkw (hfull (not_le.1 hlt)) hm
    exact (missed_sweep (wired_loop hkw hm) hmissed hsweep).not_synced hs'
  · intro hle
    have hclients : Wired ls m ∧ Synced m := by
      apply handle_invariant hkw (hroom hle) hm
      intro a i hi b ha hsync hab
      obtain ⟨j, -, rfl⟩ := List.mem_map.1 hi
      exact synced_client ha hsync (Nat.le_add_right _ _) hab
    exact (sweep_invariant hclients.1 hclients.2 hsweep fun _ _ _ _ => synced_sweep).2

/-! ## Runs -/

/-- The two tables agree at the head of every pass if and only if every pass has room for the
clients that arrive in it. -/
theorem synced_iff_room (ls : Listeners) (steps : List (Server × Round)) (s : Server)
    (h : Run (step ls) (Server.init ls) steps s) :
    (∀ x ∈ steps, Synced x.1) ∧ Synced s ↔ ∀ x ∈ steps, Room x.1 x.2 := by
  have hinit : Synced (Server.init ls) := by
    rw [synced_iff_perm (Wired.init ls)]
    exact List.Perm.refl []
  exact h.forall_iff (Wired.init ls) hinit (fun s rd s' hs hstep => wired_step hs hstep)
    fun s rd s' hs hg hstep => step_synced_iff hs hg hstep

/-- The descriptors that follow standard input, output and error. -/
def stdListeners : Listeners where
  echoSock := 3
  hdSock := 4
  echo_nonneg := by decide
  hd_nonneg := by decide

/-- A descriptor above those that are open. -/
def newSd : List ℤ → ℤ
  | [] => 0
  | fd :: rest => if fd < newSd rest then newSd rest else fd + 1

theorem lt_newSd (opened : List ℤ) : ∀ fd ∈ opened, fd < newSd opened := by
  induction opened with
  | nil => exact fun fd hfd => absurd hfd List.not_mem_nil
  | cons a rest ih =>
    intro fd hfd
    unfold newSd
    rcases List.mem_cons.1 hfd with rfl | hfd
    · split_ifs <;> omega
    · have := ih fd hfd
      split_ifs <;> omega

/-- A client arrives at the echo socket. -/
def knock : Round where
  pollFails := false
  elapsed := 0
  revents := fun i => if i = 0 then ⟨true, false, false⟩ else .none
  accept := fun _ => newSd
  recv := fun _ => 0
  shutdown := fun _ => 0
  close := fun _ => 0
  accept_fresh := fun _ opened h => lt_irrefl _ (lt_newSd opened _ h)

/-- The server after one client has arrived. -/
def greeted : Server where
  sds := [3, 4, 5, -1, -1, -1, -1, -1, -1, -1, -1, -1]
  conns := [⟨5, 5000, .echo⟩]
  serverTimeout := 10000
  opened := [5]

/-- A client arrives at the other socket, 20 ms later. -/
def knockHexdump : Round :=
  { knock with
    elapsed := 20
    revents := fun i => if i = 1 then ⟨true, false, false⟩ else .none }

/-- The server after the second client has arrived. -/
def greetedTwo : Server where
  sds := [3, 4, 5, 6, -1, -1, -1, -1, -1, -1, -1, -1]
  conns := [⟨5, 4980, .echo⟩, ⟨6, 5000, .hexdump⟩]
  serverTimeout := 10000
  opened := [6, 5]

/-- The passes in which two clients arrive, one at each socket. -/
def knocks : List (Server × Round) :=
  [(.init stdListeners, knock)] ++ [(greeted, knockHexdump)]

theorem run_greetedTwo : Run (step stdListeners) (.init stdListeners) knocks greetedTwo :=
  (Run.init.snoc (by decide)).snoc (by decide)

/-- There is room for both clients. -/
theorem synced_iff_room_knocks :
    (∀ x ∈ knocks, Synced x.1) ∧ Synced greetedTwo ↔ ∀ x ∈ knocks, Room x.1 x.2 :=
  synced_iff_room stdListeners knocks greetedTwo run_greetedTwo

/-- The eleventh of eleven clients is not watched. -/
theorem not_synced_eleven :
    ∃ steps s, Run (step stdListeners) (.init stdListeners) steps s ∧ ¬ Synced s := by
  have hloop : (List.replicate 11 knock).foldlM (step stdListeners) (.init stdListeners) =
      some
        { sds := [3, 4, 5, 6, 7, 8, 9, 10, 11, 12, 13, 14]
          conns := (List.range 11).map fun n => ⟨n + 5, 5000, .echo⟩
          serverTimeout := 10000
          opened := [15, 14, 13, 12, 11, 10, 9, 8, 7, 6, 5] } := by
    decide +kernel
  obtain ⟨steps, hsteps⟩ := Run.exists_of_foldlM hloop
  refine ⟨steps, _, hsteps, fun hsync => ?_⟩
  have hwatched := (hsync.same 15).2 (by decide)
  exact absurd hwatched (by decide)

end Sem3.Poll
