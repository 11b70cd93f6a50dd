import Sem3.Poll.Log
import Sem3.Poll.Proofs.TimeoutProofs

/-!
# Proofs: idle clients are closed in time

Within a pass every connection has either its full timeout, if its client was active in this pass, or
what it had before less the time of the poll. Clients are accepted by the first two entries of `sds`
only, so no client is accepted behind the first one that is closed, and what has been closed and what
is in the list are different descriptors until the end of the pass.
-/

namespace Sem3.Poll

variable {ls : Listeners} {rd : Round} {s s' : Server} {sd fd : ℤ} {service : Service} {cause : Cause}
  {revents : ℕ → Revents} {i : ℕ} {log log' : List Happening} {x y : Server × List Happening}
  {base : ℤ → ℤ} {clients : List ℤ}

/-! ## What happens -/

theorem closings_append : closings (log ++ log') = closings log ++ closings log' :=
  List.filterMap_append

/-- The clients that are closed, for whatever cause. -/
theorem mem_closings : sd ∈ closings log ↔ ∃ cause, .closed sd cause ∈ log := by
  unfold closings
  rw [List.mem_filterMap]
  constructor
  · rintro ⟨e, he, hsd⟩
    cases e with
    | accepted => cases hsd
    | heard => cases hsd
    | closed sd' cause =>
      obtain rfl := Option.some.inj hsd
      exact ⟨cause, he⟩
  · rintro ⟨cause, he⟩
    exact ⟨_, he, rfl⟩

@[simp] theorem closings_accepted : closings (log ++ [.accepted sd]) = closings log := by
  rw [closings_append]
  exact List.append_nil _

@[simp] theorem closings_heard : closings (log ++ [.heard sd]) = closings log := by
  rw [closings_append]
  exact List.append_nil _

@[simp] theorem closings_closed :
    closings (log ++ [.closed sd cause]) = closings log ++ [sd] := closings_append

@[simp] theorem active_accepted :
    Active fd (log ++ [.accepted sd]) ↔ fd = sd ∨ Active fd log := by
  simp [Active, or_comm, or_assoc]

@[simp] theorem active_heard : Active fd (log ++ [.heard sd]) ↔ fd = sd ∨ Active fd log := by
  simp [Active, or_comm, or_left_comm]

@[simp] theorem active_closed : Active fd (log ++ [.closed sd cause]) ↔ Active fd log := by
  simp [Active]

theorem acceptClient_happens (hs : acceptClient ls rd i service s = some s') :
    Fresh ls s (rd.accept i (ls.echoSock :: ls.hdSock :: s.opened)) ∧
      s' = s.accepted (rd.accept i (ls.echoSock :: ls.hdSock :: s.opened)) service := by
  unfold acceptClient at hs
  simp only at hs
  split_ifs at hs with hneg
  exact ⟨⟨not_lt.1 hneg, rd.accept_fresh i _⟩, (Option.some.inj hs).symm⟩

theorem receive_happens (hs : receive rd i fd s = some s') :
    fd ∈ s.clients ∧ (rd.recv i = 0 ∧ s' = s.closed fd ∨ rd.recv i ≠ 0 ∧ s' = s.received fd) := by
  unfold receive at hs
  split_ifs at hs with heof hneg hfind
  · obtain ⟨hmem, heq⟩ := closeClient_eq_some hs
    exact ⟨hmem, .inl ⟨heof, heq⟩⟩
  · rw [findSd_eq_none, not_not] at hfind
    exact ⟨hfind, .inr ⟨heof, (Option.some.inj hs).symm⟩⟩

/-- What the entry of a listening socket does. -/
theorem listener_happens (h : Wired ls s) (hi : i < serviceCount)
    (hs : handle ls rd revents s i = some s') :
    happenings ls rd revents s i = [] ∧ s' = s ∨
      ∃ sd service, Fresh ls s sd ∧ happenings ls rd revents s i = [.accepted sd] ∧
        s' = s.accepted sd service := by
  obtain ⟨hnonneg, hclient, hsock⟩ := h.listener hi
  unfold happenings
  unfold handle at hs
  simp only at hs ⊢
  split_ifs at hs with hskip hhup hin hecho hhd
  · exact .inl ⟨if_pos hskip, (Option.some.inj hs).symm⟩
  · exact absurd (closeClient_eq_some hs).1 hclient
  all_goals rw [if_neg hskip, if_neg hhup]
  · obtain ⟨hfresh, rfl⟩ := acceptClient_happens hs
    exact .inr ⟨_, _, hfresh, by rw [if_pos hin, if_pos hsock], rfl⟩
  · obtain ⟨hfresh, rfl⟩ := acceptClient_happens hs
    exact .inr ⟨_, _, hfresh, by rw [if_pos hin, if_pos hsock], rfl⟩
  · exact absurd hsock (not_or.2 ⟨hecho, hhd⟩)
  · exact .inl ⟨if_neg hin, (Option.some.inj hs).symm⟩

/-- What the entry of a client does. -/
theorem client_happens (h : Wired ls s) (hi : serviceCount ≤ i)
    (hs : handle ls rd revents s i = some s') :
    happenings ls rd revents s i = [] ∧ s' = s ∨
      ∃ sd ∈ s.clients, happenings ls rd revents s i = [.heard sd] ∧ s' = s.received sd ∨
        ∃ cause, cause ≠ .timeout ∧ happenings ls rd revents s i = [.closed sd cause] ∧
          s' = s.closed sd := by
  unfold happenings
  unfold handle at hs
  simp only at hs ⊢
  split_ifs at hs with hskip hhup hin hecho hhd
  · exact .inl ⟨if_pos hskip, (Option.some.inj hs).symm⟩
  all_goals
    have hnonneg := not_lt.1 (not_or.1 hskip).1
    have hmem : s.sds.getD i (-1) ∈ s.clients := h.watched.subset
      (List.mem_filter.2 ⟨getD_mem_slots hi hnonneg, decide_eq_true hnonneg⟩)
    rw [if_neg hskip]
  · obtain ⟨-, rfl⟩ := closeClient_eq_some hs
    exact .inr ⟨_, hmem, .inr ⟨.hangUp, by decide, if_pos hhup, rfl⟩⟩
  · exact absurd (hecho ▸ hmem) h.echo
  · exact absurd (hhd ▸ hmem) h.hd
  · rw [if_neg hhup, if_pos hin, if_neg (not_or.2 ⟨hecho, hhd⟩)]
    obtain ⟨-, ⟨heof, rfl⟩ | ⟨heof, rfl⟩⟩ := receive_happens hs
    · exact .inr ⟨_, hmem, .inr ⟨.eof, by decide, if_pos heof, rfl⟩⟩
    · exact .inr ⟨_, hmem, .inl ⟨if_neg heof, rfl⟩⟩
  · rw [if_neg hhup, if_neg hin]
    exact .inl ⟨rfl, (Option.some.inj hs).symm⟩

/-! ## The ledger of a pass -/

/-- The timeouts, and what became of the clients that there were at the beginning of the pass, where
`base` is the time that a client has been idle if it is not active in the pass. -/
structure Ledger (base : ℤ → ℤ) (clients : List ℤ) (x : Server × List Happening) : Prop where
  timeout : ∀ c ∈ x.1.conns,
    c.timeout = connTimeout - if Active c.sd x.2 then 0 else base c.sd
  kept : ∀ sd ∈ clients, sd ∈ x.1.clients ∨ sd ∈ closings x.2
  due : ∀ sd, .closed sd .timeout ∈ x.2 →
    connTimeout - (if Active sd x.2 then 0 else base sd) ≤ 0
  once : (closings x.2 ++ x.1.clients).Nodup

/-- The connection with the descriptor has the full timeout, and no other one is changed. -/
theorem mem_resetTimeout_cases {c : Connection} {conns : List Connection}
    (hnodup : (conns.map Connection.sd).Nodup) (hc : c ∈ resetTimeout sd conns) :
    c.sd = sd ∧ c.timeout = connTimeout ∨ c.sd ≠ sd ∧ c ∈ conns := by
  induction conns with
  | nil => cases hc
  | cons d rest ih =>
    obtain ⟨hd, hrest⟩ := List.nodup_cons.1 hnodup
    unfold resetTimeout at hc
    split_ifs at hc with heq
    · rcases List.mem_cons.1 hc with rfl | hc
      · exact .inl ⟨heq, rfl⟩
      · refine .inr ⟨fun hsd => hd ?_, List.mem_cons_of_mem d hc⟩
        rw [heq, ← hsd]
        exact List.mem_map_of_mem hc
    · rcases List.mem_cons.1 hc with rfl | hc
      · exact .inr ⟨heq, List.mem_cons_self⟩
      · exact (ih hrest hc).imp_right (And.imp_right (List.mem_cons_of_mem d))

/-- What is closed is not in the list. -/
theorem Ledger.ne (h : Ledger base clients x) (hfd : .closed fd cause ∈ x.2)
    (hsd : sd ∈ x.1.clients) : fd ≠ sd := by
  obtain ⟨-, -, hdisjoint⟩ := List.nodup_append.1 h.once
  exact hdisjoint fd (mem_closings.2 ⟨cause, hfd⟩) sd hsd

theorem Ledger.accept (h : Ledger base clients x) (hw : Wired ls x.1) (hnone : closings x.2 = [])
    (hsd : Fresh ls x.1 sd) :
    Ledger base clients (x.1.accepted sd service, x.2 ++ [.accepted sd]) where
  timeout := by
    have hnew : sd ∉ x.1.clients := fun hmem =>
      hsd.2 (List.mem_cons_of_mem _ (List.mem_cons_of_mem _ (hw.opened.mem_iff.2 hmem)))
    intro c hc
    rcases List.mem_append.1 hc with hc | hc
    · have hne : c.sd ≠ sd := fun heq => hnew (heq ▸ List.mem_map_of_mem hc)
      simp only [active_accepted, hne, false_or]
      exact h.timeout c hc
    · obtain rfl := List.mem_singleton.1 hc
      simp
  kept := by
    intro fd hfd
    rw [accepted_clients, closings_accepted]
    exact (h.kept fd hfd).imp_left (List.mem_append_left _)
  due := by
    intro fd hfd
    have hclosed : fd ∈ closings (x.2 ++ [.accepted sd]) := mem_closings.2 ⟨_, hfd⟩
    rw [closings_accepted, hnone] at hclosed
    cases hclosed
  once := by
    rw [closings_accepted, hnone]
    exact (wired_accepted hw hsd).nodup

theorem Ledger.receive (h : Ledger base clients x) (hsd : sd ∈ x.1.clients) :
    Ledger base clients (x.1.received sd, x.2 ++ [.heard sd]) where
  timeout := by
    intro c hc
    simp only [active_heard]
    rcases mem_resetTimeout_cases (List.nodup_append.1 h.once).2.1 hc with ⟨heq, ht⟩ | ⟨hne, hmem⟩
    · simp [heq, ht]
    · simpa [hne] using h.timeout c hmem
  kept := by
    intro fd hfd
    rw [received_clients, closings_heard]
    exact h.kept fd hfd
  due := by
    intro fd hfd
    have hfd : .closed fd .timeout ∈ x.2 := by simpa using hfd
    simp only [active_heard, h.ne hfd hsd, false_or]
    exact h.due fd hfd
  once := by
    rw [received_clients, closings_heard]
    exact h.once

theorem Ledger.close (h : Ledger base clients x) (hsd : sd ∈ x.1.clients)
    (hdue : cause = .timeout → connTimeout - (if Active sd x.2 then 0 else base sd) ≤ 0) :
    Ledger base clients (x.1.closed sd, x.2 ++ [.closed sd cause]) where
  timeout := by
    intro c hc
    simp only [active_closed]
    exact h.timeout c (List.mem_of_mem_eraseP hc)
  kept := by
    intro fd hfd
    rw [closed_clients, closings_closed]
    by_cases heq : fd = sd
    · exact .inr (by simp [heq])
    · exact (h.kept fd hfd).imp (List.mem_erase_of_ne heq).2 (List.mem_append_left _)
  due := by
    intro fd hfd
    simp only [active_closed]
    rcases List.mem_append.1 hfd with hfd | hfd
    · exact h.due fd hfd
    · obtain ⟨rfl, rfl⟩ := Happening.closed.inj (List.mem_singleton.1 hfd)
      exact hdue rfl
  once := by
    rw [closed_clients, closings_closed]
    have hperm : (closings x.2 ++ [sd] ++ x.1.clients.erase sd).Perm (closings x.2 ++ x.1.clients) := by
      rw [List.append_assoc]
      exact (List.perm_cons_erase hsd).symm.append_left _
    exact hperm.nodup_iff.2 h.once

/-! ## The two loops of a pass -/

/-- The loop over the listening sockets, which closes nothing. -/
theorem listeners_ledger {l : List ℕ} (hl : ∀ i ∈ l, i < serviceCount)
    (hs : l.foldlM (Run.logged (handle ls rd revents) (happenings ls rd revents)) x = some y)
    (hw : Wired ls x.1) (h : Ledger base clients x) (hnone : closings x.2 = []) :
    Wired ls y.1 ∧ Ledger base clients y := by
  have hall : (Wired ls y.1 ∧ Ledger base clients y) ∧ closings y.2 = [] := by
    refine Run.foldlM_invariant
      (I := fun x => (Wired ls x.1 ∧ Ledger base clients x) ∧ closings x.2 = []) hs ⟨⟨hw, h⟩, hnone⟩ ?_
    rintro x i hi ⟨s', log'⟩ ⟨⟨hw, h⟩, hnone⟩ hstep
    obtain ⟨hhandle, hlog⟩ := Run.logged_eq_some.1 hstep
    simp only at hhandle hlog
    refine ⟨⟨wired_handle hw hhandle, ?_⟩, ?_⟩
    all_goals
      rcases listener_happens hw (hl i hi) hhandle with
        ⟨hnothing, rfl⟩ | ⟨sd, service, hsd, hone, rfl⟩
    · rw [hlog, hnothing, List.append_nil]
      exact h
    · rw [hlog, hone]
      exact h.accept hw hnone hsd
    · rw [hlog, hnothing, List.append_nil]
      exact hnone
    · rw [hlog, hone, closings_accepted]
      exact hnone
  exact hall.1

/-- The loop over the clients. -/
theorem clients_ledger {l : List ℕ} (hl : ∀ i ∈ l, serviceCount ≤ i)
    (hs : l.foldlM (Run.logged (handle ls rd revents) (happenings ls rd revents)) x = some y)
    (hw : Wired ls x.1) (h : Ledger base clients x) : Wired ls y.1 ∧ Ledger base clients y := by
  refine Run.foldlM_invariant (I := fun x => Wired ls x.1 ∧ Ledger base clients x) hs ⟨hw, h⟩ ?_
  rintro x i hi ⟨s', log'⟩ ⟨hw, h⟩ hstep
  obtain ⟨hhandle, hlog⟩ := Run.logged_eq_some.1 hstep
  simp only at hhandle hlog
  refine ⟨wired_handle hw hhandle, ?_⟩
  rcases client_happens hw (hl i hi) hhandle with
    ⟨hnothing, rfl⟩ | ⟨sd, hsd, ⟨hone, rfl⟩ | ⟨cause, hcause, hone, rfl⟩⟩
  · rw [hlog, hnothing, List.append_nil]
    exact h
  · rw [hlog, hone]
    exact h.receive hsd
  · rw [hlog, hone]
    exact h.close hsd fun heq => absurd heq hcause

/-- The loop over `conns`, whose timeouts are those of the ledger. -/
theorem sweep_ledger {l : List Connection}
    (hs : l.foldlM (Run.logged (sweep rd) expiry) x = some y) (hw : Wired ls x.1)
    (h : Ledger base clients x) (hl : ∀ c ∈ l,
      c.timeout = connTimeout - if Active c.sd x.2 then 0 else base c.sd) :
    Ledger base clients y := by
  have hall : (Wired ls y.1 ∧ Ledger base clients y) ∧ ∀ fd, Active fd y.2 ↔ Active fd x.2 := by
    refine Run.foldlM_invariant (I := fun y =>
      (Wired ls y.1 ∧ Ledger base clients y) ∧ ∀ fd, Active fd y.2 ↔ Active fd x.2)
      hs ⟨⟨hw, h⟩, fun _ => Iff.rfl⟩ ?_
    rintro y c hc ⟨s', log'⟩ ⟨⟨hw, h⟩, hactive⟩ hstep
    obtain ⟨hsweep, hlog⟩ := Run.logged_eq_some.1 hstep
    simp only at hsweep hlog
    rcases sweep_cases hsweep with ⟨hpos, rfl⟩ | ⟨hle, hsd, rfl⟩
    · rw [expiry, if_neg (not_le.2 hpos), List.append_nil] at hlog
      rw [hlog]
      exact ⟨⟨hw, h⟩, hactive⟩
    · rw [expiry, if_pos hle] at hlog
      rw [hlog]
      refine ⟨⟨wired_closed hw hsd, h.close hsd fun _ => ?_⟩, fun fd => ?_⟩
      · simp only [hactive]
        rw [← hl c hc]
        exact hle
      · rw [active_closed]
        exact hactive fd
  exact hall.1.2

/-! ## One pass -/

/-- A pass is the loop over the entries and the sweep. -/
theorem pass_eq_some {x : Server × List Happening} (hp : pass ls rd s = some x)
    (hne : ¬ Expired rd s) : ∃ m,
      (List.range (maxConn + serviceCount)).foldlM
        (Run.logged (handle ls rd (rd.reported s.sds)) (happenings ls rd (rd.reported s.sds)))
        (s.polled rd, []) = some m ∧
      m.1.conns.foldlM (Run.logged (sweep rd) expiry) m = some x := by
  unfold pass at hp
  split_ifs at hp
  rwa [Option.bind_eq_bind, Option.bind_eq_some_iff] at hp

/-- The log does not change what a pass does. -/
theorem exists_pass (hs : step ls s rd = some s') :
    ¬ Expired rd s ∧ ∃ log, pass ls rd s = some (s', log) := by
  obtain ⟨hfails, hexpired, m, hm, hsweep⟩ := step_eq_some hs
  have hexpired : ¬ Expired rd s := hexpired
  obtain ⟨log, hlog⟩ := Run.exists_foldlM_logged (happenings ls rd (rd.reported s.sds)) [] hm
  obtain ⟨log', hlog'⟩ := Run.exists_foldlM_logged expiry log hsweep
  refine ⟨hexpired, log', ?_⟩
  rw [pass, if_neg hfails, if_neg hexpired, hlog]
  exact hlog'

/-- The ledger at the end of a pass, and at the beginning the time that each client has left. -/
theorem pass_ledger (left : ℤ → ℤ) (hw : Wired ls s)
    (hleft : ∀ c ∈ s.conns, c.timeout = connTimeout - left c.sd) (hne : ¬ Expired rd s)
    (hp : pass ls rd s = some (s', log)) :
    Ledger (fun sd => left sd + rd.elapsed) s.clients (s', log) ∧ ∀ c ∈ s'.conns, 0 < c.timeout := by
  obtain ⟨m, hm, hsweep⟩ := pass_eq_some hp hne
  have hstart : Ledger (fun sd => left sd + rd.elapsed) s.clients (s.polled rd, []) := by
    refine ⟨?_, fun sd hsd => .inl ?_, fun sd hsd => absurd hsd List.not_mem_nil, ?_⟩
    · intro c hc
      obtain ⟨d, hd, rfl⟩ := List.mem_map.1 hc
      have hd' := hleft d hd
      simp [Active]
      omega
    · rw [polled_clients]
      exact hsd
    · simpa [closings] using hw.nodup
  have hrange : List.range (maxConn + serviceCount) =
      List.range serviceCount ++ List.range' serviceCount maxConn := rfl
  rw [hrange, Run.foldlM_append_eq_some] at hm
  obtain ⟨m', hlisteners, hclients⟩ := hm
  obtain ⟨hw', h'⟩ := listeners_ledger (fun i hi => List.mem_range.1 hi) hlisteners
    (wired_polled hw) hstart rfl
  obtain ⟨hw'', h''⟩ := clients_ledger (fun i hi => (List.mem_range'_1.1 hi).1) hclients hw' h'
  refine ⟨sweep_ledger hsweep hw'' h'' h''.timeout, fun c hc => ?_⟩
  obtain ⟨hmem, hpos⟩ := sweep_conns hw'' (Run.foldlM_eq_some_of_logged hsweep) c hc
  exact hpos hmem

/-! ## Runs -/

/-- How long a client has been silent behind one more pass. -/
theorem idle_snoc {steps : List (Server × Round)} (hp : pass ls rd s = some (s', log)) (sd : ℤ) :
    idle ls sd (steps ++ [(s, rd)]) =
      if Active sd log then 0 else idle ls sd steps + rd.elapsed := by
  have hlog : logOf ls (s, rd) = log := by
    simp only [logOf, hp]
    rfl
  rw [idle, List.reverse_append, List.reverse_singleton, List.singleton_append]
  by_cases hactive : Active sd log
  · rw [List.takeWhile_cons_of_neg (by simpa [hlog] using hactive), if_pos hactive]
    rfl
  · rw [List.takeWhile_cons_of_pos (by simpa [hlog] using hactive), if_neg hactive, List.map_cons,
      List.sum_cons, Int.add_comm]
    rfl

/-- A pass that goes on to its end does what it should. -/
theorem onTime_pass {steps : List (Server × Round)} (hw : Wired ls s)
    (hleft : ∀ c ∈ s.conns, c.timeout = remaining ls c.sd steps) (hne : ¬ Expired rd s)
    (hp : pass ls rd s = some (s', log)) : OnTime ls s s' (steps ++ [(s, rd)]) log := by
  obtain ⟨hledger, hpos⟩ := pass_ledger (idle ls · steps) hw hleft hne hp
  have hremaining : ∀ sd, remaining ls sd (steps ++ [(s, rd)]) =
      connTimeout - if Active sd log then 0 else idle ls sd steps + rd.elapsed := fun sd => by
    rw [remaining, idle_snoc hp]
  refine
    { timeout := fun c hc => ⟨by rw [hremaining]; exact hledger.timeout c hc, hpos c hc⟩
      cause := ?cause
      closed := ?closed
      once := (List.nodup_append.1 hledger.once).1 }
  case cause =>
    intro sd cause hsd
    cases cause with
    | hangUp => exact .inl rfl
    | eof => exact .inr (.inl rfl)
    | timeout =>
      rw [hremaining]
      exact .inr (.inr (hledger.due sd hsd))
  case closed =>
    intro c hc hdue
    rcases hledger.kept c.sd (List.mem_map_of_mem hc) with hsd | hsd
    · -- a connection that is left has time left
      obtain ⟨d, hd, heq⟩ := List.mem_map.1 hsd
      have ht := hledger.timeout d hd
      rw [heq, ← hremaining] at ht
      have hpos' := hpos d hd
      omega
    · exact hsd

/-- In every run the timeouts are what the silence has left of 5000 ms. -/
theorem run_remaining {steps : List (Server × Round)} (h : Run (step ls) (Server.init ls) steps s) :
    Wired ls s ∧ ∀ c ∈ s.conns, c.timeout = remaining ls c.sd steps := by
  induction h with
  | init => exact ⟨Wired.init ls, fun c hc => nomatch hc⟩
  | snoc _ hstep ih =>
    obtain ⟨hw, hleft⟩ := ih
    obtain ⟨hne, log, hp⟩ := exists_pass hstep
    exact ⟨wired_step hw hstep, fun c hc => ((onTime_pass hw hleft hne hp).timeout c hc).1⟩

/-- In every pass of a run that is carried through to its end, idle clients are closed in time. -/
theorem idle_clients_closed (ls : Listeners) (steps : List (Server × Round)) (s s' : Server)
    (rd : Round) (h : Run (step ls) (Server.init ls) steps s) (hs : step ls s rd = some s') :
    ∃ log, pass ls rd s = some (s', log) ∧ OnTime ls s s' (steps ++ [(s, rd)]) log := by
  obtain ⟨hw, hleft⟩ := run_remaining h
  obtain ⟨hne, log, hp⟩ := exists_pass hs
  exact ⟨log, hp, onTime_pass hw hleft hne hp⟩

/-- A pass in which nothing is reported. -/
def quiet (elapsed : ℤ) : Round := { knock with elapsed := elapsed, revents := fun _ => .none }

/-- Of two clients the one that was silent for 5 seconds is closed, and the other one has 15 ms left. -/
theorem idle_clients_closed_quiet : ∃ log,
    pass stdListeners (quiet 4985) greetedTwo =
      some ({ greetedTwo with
        sds := [3, 4, -1, 6, -1, -1, -1, -1, -1, -1, -1, -1]
        conns := [⟨6, 15, .hexdump⟩]
        serverTimeout := 5015
        opened := [6] }, log) ∧
      OnTime stdListeners greetedTwo
        { greetedTwo with
          sds := [3, 4, -1, 6, -1, -1, -1, -1, -1, -1, -1, -1]
          conns := [⟨6, 15, .hexdump⟩]
          serverTimeout := 5015
          opened := [6] }
        (knocks ++ [(greetedTwo, quiet 4985)]) log :=
  idle_clients_closed stdListeners knocks greetedTwo _ (quiet 4985) run_greetedTwo (by decide)

/-- If `poll` returns when the server has timed out as well, the loop is left and no client is
closed. -/
theorem not_onTime_expired :
    pass stdListeners (quiet 10000) greetedTwo = some (greetedTwo.polled (quiet 10000), []) ∧
      ¬ OnTime stdListeners greetedTwo (greetedTwo.polled (quiet 10000))
        (knocks ++ [(greetedTwo, quiet 10000)]) [] := by
  refine ⟨by decide, fun h => ?_⟩
  have hpos := (h.timeout ⟨5, -5020, .echo⟩ (by decide)).2
  exact absurd hpos (by decide)

end Sem3.Poll
