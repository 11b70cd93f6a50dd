import Sem3.Poll.Proofs.SyncProofs

/-!
# Proofs: the timeout that `poll` is called with

The server has at least 5000 ms more than any of its clients. So as long as there is a client, the
server does not time out while `poll` waits for it, and when there is none, either nothing was
reported, and the loop ends if the server has timed out, or a new client has set the timeout anew.
-/

namespace Sem3.Poll

variable {ls : Listeners} {rd : Round} {s s' : Server} {revents : ℕ → Revents} {i : ℕ}

/-! ## The least timeout -/

theorem nextTimeout_cons (c : Connection) (rest : List Connection) (serverTimeout : ℤ) :
    nextTimeout (c :: rest) serverTimeout =
      nextTimeout rest (if c.timeout < serverTimeout then c.timeout else serverTimeout) := rfl

/-- The next timeout is not behind that of the server. -/
theorem nextTimeout_le_serverTimeout (conns : List Connection) (serverTimeout : ℤ) :
    nextTimeout conns serverTimeout ≤ serverTimeout := by
  induction conns generalizing serverTimeout with
  | nil => exact le_refl _
  | cons c rest ih =>
    rw [nextTimeout_cons]
    apply (ih _).trans
    split_ifs <;> omega

/-- The next timeout is not behind that of a client. -/
theorem nextTimeout_le {c : Connection} {conns : List Connection} (hc : c ∈ conns)
    (serverTimeout : ℤ) : nextTimeout conns serverTimeout ≤ c.timeout := by
  induction conns generalizing serverTimeout with
  | nil => exact absurd hc List.not_mem_nil
  | cons d rest ih =>
    rw [nextTimeout_cons]
    rcases List.mem_cons.1 hc with rfl | hc
    · apply (nextTimeout_le_serverTimeout rest _).trans
      split_ifs <;> omega
    · exact ih hc _

/-- The next timeout is positive if all timeouts are. -/
theorem nextTimeout_pos_of_forall {conns : List Connection} {serverTimeout : ℤ}
    (hserver : 0 < serverTimeout) (hconns : ∀ c ∈ conns, 0 < c.timeout) :
    0 < nextTimeout conns serverTimeout := by
  induction conns generalizing serverTimeout with
  | nil => exact hserver
  | cons c rest ih =>
    rw [nextTimeout_cons]
    refine ih ?_ fun d hd => hconns d (List.mem_cons_of_mem c hd)
    split_ifs
    · exact hconns c List.mem_cons_self
    · exact hserver

/-! ## The gap between the server and its clients -/

/-- The server has at least 5000 ms more than any of its clients. -/
def Gap (s : Server) : Prop :=
  ∀ c ∈ s.conns, c.timeout ≤ connTimeout ∧
    c.timeout + (serverTimeoutMax - connTimeout) ≤ s.serverTimeout

theorem gap_event (hs : Gap s) (he : Event ls s s') : Gap s' := by
  cases he with
  | accept =>
    intro c hc
    rcases List.mem_append.1 hc with hc | hc
    · have := (hs c hc).1
      exact ⟨this, by unfold Server.accepted; simp only; omega⟩
    · rw [List.mem_singleton.1 hc]
      refine ⟨le_refl _, ?_⟩
      show connTimeout + (serverTimeoutMax - connTimeout) ≤ serverTimeoutMax
      decide
  | close => exact fun c hc => hs c (List.mem_of_mem_eraseP hc)
  | receive =>
    intro c hc
    have hle : c.timeout ≤ connTimeout := by
      rcases mem_of_mem_resetTimeout hc with hc | hc
      · exact (hs c hc).1
      · exact hc.le
    exact ⟨hle, by unfold Server.received; simp only; omega⟩

theorem gap_polled (hs : Gap s) (hp : 0 ≤ rd.elapsed) : Gap (s.polled rd) := by
  intro c hc
  obtain ⟨d, hd, rfl⟩ := List.mem_map.1 hc
  obtain ⟨hle, hgap⟩ := hs d hd
  unfold Server.polled
  simp only
  omega

/-- Every event that sets the timeout of the server sets it to the most it can be. -/
theorem alive_event (hs : 0 < s.serverTimeout) (he : Event ls s s') : 0 < s'.serverTimeout := by
  cases he with
  | accept => show (0 : ℤ) < serverTimeoutMax; decide
  | close => exact hs
  | receive => show (0 : ℤ) < serverTimeoutMax; decide

/-! ## The loop over `sds` -/

/-- What every event keeps holds behind the loop over the entries. -/
theorem handle_loop {I : Server → Prop} {l : List ℕ} (hI : ∀ s s', I s → Event ls s s' → I s')
    (h : Wired ls s) (h0 : I s) (hs : l.foldlM (handle ls rd revents) s = some s') : I s' := by
  refine (handle_invariant h h0 hs fun s i _ s' h h0 hs => ?_).2
  rcases handle_event h hs with rfl | he
  · exact h0
  · exact hI s s' h0 he

/-- A client that arrives keeps the server alive. -/
theorem alive_of_listener {l : List ℕ} (h : Wired ls s) (hi : i ∈ l) (hlt : i < serviceCount)
    (hin : (revents i).pollin = true) (hs : l.foldlM (handle ls rd revents) s = some s') :
    0 < s'.serverTimeout := by
  induction l generalizing s with
  | nil => exact absurd hi List.not_mem_nil
  | cons j l ih =>
    obtain ⟨m, hm, hrest⟩ := Run.foldlM_cons_eq_some.1 hs
    have hwired : Wired ls m := wired_handle h hm
    rcases List.mem_cons.1 hi with rfl | hi
    · rcases listener_cases h hlt hm with ⟨hno, -⟩ | ⟨-, sd, service, -, rfl⟩
      · rw [hin] at hno
        cases hno
      · refine handle_loop (fun _ _ => alive_event) hwired ?_ hrest
        show (0 : ℤ) < serverTimeoutMax
        decide
    · exact ih hwired hi hrest

/-- With no client, whatever is reported is reported by a listening socket. -/
theorem exists_listener (h : Wired ls s) (hp : Prompt s rd) (hclients : s.clients = [])
    (hret : 0 < rd.pollRet s.sds) :
    ∃ i < serviceCount, (rd.reported s.sds i).pollin = true := by
  unfold Round.pollRet at hret
  split_ifs at hret with hfails
  · omega
  · obtain ⟨i, hi, hrep⟩ := List.countP_pos_iff.1 (Int.natCast_pos.1 hret)
    have hrep : rd.reported s.sds i ≠ .none := of_decide_eq_true hrep
    have hnonneg : 0 ≤ s.sds.getD i (-1) := by
      by_contra hneg
      exact hrep (if_pos (not_le.1 hneg))
    have hlt : i < serviceCount := by
      by_contra hge
      have hwatched : s.sds.getD i (-1) ∈ s.watched :=
        List.mem_filter.2 ⟨getD_mem_slots (not_lt.1 hge) hnonneg, decide_eq_true hnonneg⟩
      have hmem := h.watched.subset hwatched
      rw [hclients] at hmem
      cases hmem
    refine ⟨i, hlt, ?_⟩
    rw [reported_listener h hlt] at hrep ⊢
    rw [(hp.listeners i hlt).resolve_left hrep]

/-! ## One pass -/

/-- What holds at the head of every pass. -/
structure Paced (s : Server) : Prop where
  server : 0 < s.serverTimeout
  conns : ∀ c ∈ s.conns, 0 < c.timeout
  gap : Gap s

theorem Paced.init (ls : Listeners) : Paced (Server.init ls) where
  server := by show (0 : ℤ) < 10000; decide
  conns := fun c hc => absurd hc List.not_mem_nil
  gap := fun c hc => absurd hc List.not_mem_nil

/-- The server is alive after the loop over `sds`. -/
theorem alive_loop {m : Server} (h : Wired ls s) (hs : Paced s) (hp : Prompt s rd)
    (hfails : ¬ rd.pollRet s.sds < 0)
    (hidle : ¬ (rd.pollRet s.sds = 0 ∧ (s.polled rd).serverTimeout ≤ 0))
    (hm : (List.range (maxConn + serviceCount)).foldlM (handle ls rd (rd.reported s.sds))
      (s.polled rd) = some m) : 0 < m.serverTimeout := by
  by_cases halive : 0 < (s.polled rd).serverTimeout
  · exact handle_loop (fun _ _ => alive_event) (wired_polled h) halive hm
  · have hconns : s.conns = [] := by
      by_contra hne
      obtain ⟨c, hc⟩ := List.exists_mem_of_ne_nil _ hne
      have hnext := nextTimeout_le hc s.serverTimeout
      have hlt := hp.elapsed_lt
      have hgap : c.timeout + 5000 ≤ s.serverTimeout := (hs.gap c hc).2
      apply halive
      show 0 < s.serverTimeout - rd.elapsed
      omega
    have hret : 0 < rd.pollRet s.sds := by
      by_contra hle
      exact hidle ⟨by omega, not_lt.1 halive⟩
    obtain ⟨i, hi, hin⟩ := exists_listener h hp (by rw [Server.clients, hconns]; rfl) hret
    refine alive_of_listener (wired_polled h) (List.mem_range.2 ?_) hi hin hm
    exact Nat.lt_add_left maxConn hi

/-- The loop over `conns` closes every client that has timed out. -/
theorem sweep_conns {l : List Connection} (h : Wired ls s)
    (hs : l.foldlM (sweep rd) s = some s') :
    ∀ c ∈ s'.conns, c ∈ s.conns ∧ (c ∈ l → 0 < c.timeout) := by
  induction l generalizing s with
  | nil => exact fun c hc => ⟨Option.some.inj hs ▸ hc, fun h => absurd h List.not_mem_nil⟩
  | cons d l ih =>
    obtain ⟨m, hm, hrest⟩ := Run.foldlM_cons_eq_some.1 hs
    rcases sweep_cases hm with ⟨hpos, rfl⟩ | ⟨-, hclient, rfl⟩
    · intro c hc
      obtain ⟨hmem, hl⟩ := ih h hrest c hc
      refine ⟨hmem, fun hcl => ?_⟩
      rcases List.mem_cons.1 hcl with rfl | hcl
      · exact hpos
      · exact hl hcl
    · intro c hc
      obtain ⟨hmem, hl⟩ := ih (wired_closed h hclient) hrest c hc
      refine ⟨List.mem_of_mem_eraseP hmem, fun hcl => ?_⟩
      rcases List.mem_cons.1 hcl with rfl | hcl
      · -- the descriptor was there once, and is gone
        have hgone : c.sd ∈ (s.closed c.sd).clients := List.mem_map_of_mem hmem
        rw [closed_clients] at hgone
        exact absurd hgone h.nodup.not_mem_erase
      · exact hl hcl

theorem step_paced (h : Wired ls s) (hs : Paced s) (hp : Prompt s rd)
    (hstep : step ls s rd = some s') : Paced s' := by
  obtain ⟨hfails, hidle, m, hm, hsweep⟩ := step_eq_some hstep
  have hwired := wired_loop (wired_polled h) hm
  have hgap : Gap m :=
    handle_loop (fun _ _ => gap_event) (wired_polled h) (gap_polled hs.gap hp.elapsed_nonneg) hm
  have halive : 0 < m.serverTimeout := alive_loop h hs hp hfails hidle hm
  have hrest : 0 < s'.serverTimeout ∧ Gap s' := by
    refine (sweep_invariant (I := fun s => 0 < s.serverTimeout ∧ Gap s) hwired ⟨halive, hgap⟩
      hsweep fun a c _ b _ ⟨ha, hg⟩ hab => ?_).2
    rcases sweep_cases hab with ⟨-, rfl⟩ | ⟨-, hclient, rfl⟩
    · exact ⟨ha, hg⟩
    · have he : Event ls a (a.closed c.sd) := .close hclient
      exact ⟨alive_event ha he, gap_event hg he⟩
  refine ⟨hrest.1, fun c hc => ?_, hrest.2⟩
  obtain ⟨hmem, hpos⟩ := sweep_conns hwired hsweep c hc
  exact hpos hmem

/-- In a run in which `poll` is not late, it is never called with a timeout that is not positive. -/
theorem nextTimeout_pos (ls : Listeners) (steps : List (Server × Round)) (s : Server)
    (h : Run (step ls) (Server.init ls) steps s) (hp : ∀ x ∈ steps, Prompt x.1 x.2) :
    0 < nextTimeout s.conns s.serverTimeout := by
  have hI : Wired ls s ∧ Paced s := by
    refine h.invariant (I := fun s => Wired ls s ∧ Paced s) (C := Prompt)
      ⟨Wired.init ls, Paced.init ls⟩ ?_ hp
    rintro s rd s' ⟨hw, hs⟩ hp hstep
    exact ⟨wired_step hw hstep, step_paced hw hs hp hstep⟩
  exact nextTimeout_pos_of_forall hI.2.server hI.2.conns

/-- Two clients have arrived, and the first one has less time left. -/
theorem nextTimeout_pos_knocks : 0 < nextTimeout greetedTwo.conns greetedTwo.serverTimeout := by
  apply nextTimeout_pos stdListeners knocks greetedTwo run_greetedTwo
  intro x hx
  simp only [knocks, List.singleton_append, List.mem_cons, List.not_mem_nil, or_false] at hx
  obtain rfl | rfl := hx
  · exact ⟨by decide, by decide, by decide⟩
  · exact ⟨by decide, by decide, by decide⟩

end Sem3.Poll
