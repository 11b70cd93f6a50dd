import Sem3.Poll.Spec
import Mathlib.Data.Int.Order.Basic
import Mathlib.Data.List.GetD
import Mathlib.Data.List.Perm.Subperm
import Mathlib.Order.Nat

/-!
# Proofs: what a pass can do to the tables

A pass is a sequence of three kinds of events: a client is accepted, closed, or heard of.
`listener_cases`, `client_cases` and `sweep_cases` say which entry of `sds` and which connection can
cause which event, and `Wired` is what every event preserves, whether the tables agree or not.
-/

namespace Sem3.Poll

variable {ls : Listeners} {rd : Round} {s s' : Server} {sd fd : ℤ} {service : Service}
  {revents : ℕ → Revents} {i : ℕ}

/-! ## The two tables -/

theorem addSd_eq (sd : ℤ) (sds : List ℤ) : addSd sd sds = Slots.put (-1) sd sds := by
  induction sds with
  | nil => rfl
  | cons fd rest ih => rw [addSd, Slots.put_cons, ih]

theorem removeSd_eq (sd : ℤ) (sds : List ℤ) : removeSd sd sds = Slots.clear (-1) sd sds := by
  induction sds with
  | nil => rfl
  | cons fd rest ih => rw [removeSd, Slots.clear_cons, ih]

theorem resetTimeout_clients (sd : ℤ) (conns : List Connection) :
    (resetTimeout sd conns).map Connection.sd = conns.map Connection.sd := by
  induction conns with
  | nil => rfl
  | cons c rest ih =>
    unfold resetTimeout
    split_ifs
    · rfl
    · rw [List.map_cons, ih, List.map_cons]

/-- A connection of another descriptor stays as it is. -/
theorem mem_resetTimeout_of_ne {c : Connection} {conns : List Connection} (h : c ∈ conns)
    (hne : c.sd ≠ sd) : c ∈ resetTimeout sd conns := by
  induction conns with
  | nil => exact h
  | cons d rest ih =>
    unfold resetTimeout
    rcases List.mem_cons.1 h with rfl | h
    · rw [if_neg hne]
      exact List.mem_cons_self
    · split_ifs
      · exact List.mem_cons_of_mem _ h
      · exact List.mem_cons_of_mem _ (ih h)

/-- A connection is as it was, or has the full timeout. -/
theorem mem_of_mem_resetTimeout {c : Connection} {conns : List Connection}
    (h : c ∈ resetTimeout sd conns) : c ∈ conns ∨ c.timeout = connTimeout := by
  induction conns with
  | nil => exact Or.inl h
  | cons d rest ih =>
    unfold resetTimeout at h
    split_ifs at h
    · rcases List.mem_cons.1 h with rfl | h
      · exact Or.inr rfl
      · exact Or.inl (List.mem_cons_of_mem _ h)
    · rcases List.mem_cons.1 h with rfl | h
      · exact Or.inl List.mem_cons_self
      · exact (ih h).imp_left (List.mem_cons_of_mem _)

/-- A descriptor is not found if no client has it. -/
theorem findSd_eq_none {conns : List Connection} :
    findSd sd conns = none ↔ sd ∉ conns.map Connection.sd := by
  simp [findSd, List.find?_eq_none]

/-! ## What holds in every state -/

/-- The listening sockets are where they were put, every client that is watched is in the list, and
the list has every open client once. -/
structure Wired (ls : Listeners) (s : Server) : Prop where
  listeners : s.sds = ls.echoSock :: ls.hdSock :: s.slots
  watched : s.watched.Subperm s.clients
  nodup : s.clients.Nodup
  opened : s.opened.Perm s.clients
  nonneg : ∀ fd ∈ s.clients, 0 ≤ fd
  echo : ls.echoSock ∉ s.clients
  hd : ls.hdSock ∉ s.clients

theorem Wired.init (ls : Listeners) : Wired ls (Server.init ls) where
  listeners := rfl
  watched := by simp [Server.watched, Server.slots, Server.init, Slots.held, serviceCount, maxConn]
  nodup := List.nodup_nil
  opened := List.Perm.refl _
  nonneg := fun _ h => absurd h List.not_mem_nil
  echo := List.not_mem_nil
  hd := List.not_mem_nil

/-! ## The events -/

/-- A new descriptor is none of those that are open. -/
def Fresh (ls : Listeners) (s : Server) (sd : ℤ) : Prop :=
  0 ≤ sd ∧ sd ∉ ls.echoSock :: ls.hdSock :: s.opened

@[simp] theorem accepted_clients : (s.accepted sd service).clients = s.clients ++ [sd] := by
  simp [Server.clients, Server.accepted]

@[simp] theorem closed_clients : (s.closed sd).clients = s.clients.erase sd := by
  show (s.conns.eraseP fun c => c.sd = sd).map Connection.sd = (s.conns.map Connection.sd).erase sd
  rw [List.erase_eq_eraseP, List.eraseP_map]
  refine congrArg (fun p => (s.conns.eraseP p).map Connection.sd) (funext fun c => ?_)
  rw [Bool.eq_iff_iff, decide_eq_true_eq, Function.comp_apply, beq_iff_eq]
  exact eq_comm

@[simp] theorem received_clients : (s.received sd).clients = s.clients :=
  resetTimeout_clients sd s.conns

@[simp] theorem polled_clients : (s.polled rd).clients = s.clients := by
  simp [Server.clients, Server.polled, updateTimeouts]

theorem accepted_sds (h : Wired ls s) : (s.accepted sd service).sds =
    ls.echoSock :: ls.hdSock :: Slots.put (-1) sd s.slots := by
  have he : ls.echoSock ≠ -1 := by have := ls.echo_nonneg; omega
  have hh : ls.hdSock ≠ -1 := by have := ls.hd_nonneg; omega
  show addSd sd s.sds = _
  rw [h.listeners, addSd, if_neg he, addSd, if_neg hh, addSd_eq]

theorem closed_sds (h : Wired ls s) (hsd : sd ∈ s.clients) : (s.closed sd).sds =
    ls.echoSock :: ls.hdSock :: Slots.clear (-1) sd s.slots := by
  have he : ls.echoSock ≠ sd := fun heq => h.echo (heq ▸ hsd)
  have hh : ls.hdSock ≠ sd := fun heq => h.hd (heq ▸ hsd)
  show removeSd sd s.sds = _
  rw [h.listeners, removeSd, if_neg he, removeSd, if_neg hh, removeSd_eq]

theorem accepted_slots (h : Wired ls s) :
    (s.accepted sd service).slots = Slots.put (-1) sd s.slots := by
  rw [Server.slots, accepted_sds h]
  rfl

theorem closed_slots (h : Wired ls s) (hsd : sd ∈ s.clients) :
    (s.closed sd).slots = Slots.clear (-1) sd s.slots := by
  rw [Server.slots, closed_sds h hsd]
  rfl

/-- A client that is accepted is watched if there is a free entry. -/
theorem accepted_watched (h : Wired ls s) (hsd : 0 ≤ sd) (hfree : 0 < s.free) :
    (s.accepted sd service).watched.Perm (sd :: s.watched) := by
  rw [Server.watched, accepted_slots h]
  exact Slots.held_put (by decide) hsd (List.count_pos_iff.1 hfree)

/-- A client is not watched if there is no free entry for it. -/
theorem accepted_watched_of_full (h : Wired ls s) (hfull : s.free = 0) :
    (s.accepted sd service).watched = s.watched := by
  rw [Server.watched, accepted_slots h, Slots.put_of_full (List.count_eq_zero.1 hfull)]
  rfl

/-- A client that is accepted takes a free entry. -/
theorem accepted_free (h : Wired ls s) (hsd : 0 ≤ sd) (hfree : 0 < s.free) :
    (s.accepted sd service).free + 1 = s.free := by
  rw [Server.free, accepted_slots h]
  exact Slots.count_put (by omega) (List.count_pos_iff.1 hfree)

/-- A client that is closed is not watched any more. -/
theorem closed_watched (h : Wired ls s) (hsd : sd ∈ s.clients) :
    (s.closed sd).watched.Perm (s.watched.erase sd) := by
  rw [Server.watched, closed_slots h hsd]
  exact Slots.held_clear (by decide) (h.nonneg sd hsd)

theorem wired_accepted (h : Wired ls s) (hsd : Fresh ls s sd) :
    Wired ls (s.accepted sd service) := by
  obtain ⟨hnonneg, hfresh⟩ := hsd
  obtain ⟨he, hh, hopen⟩ : sd ≠ ls.echoSock ∧ sd ≠ ls.hdSock ∧ sd ∉ s.opened := by
    simpa only [List.mem_cons, not_or] using hfresh
  have hnew : sd ∉ s.clients := fun hmem => hopen (h.opened.mem_iff.2 hmem)
  have hcons : (s.clients ++ [sd]).Perm (sd :: s.clients) := List.perm_append_singleton sd s.clients
  refine
    { listeners := by rw [accepted_sds h, accepted_slots h]
      watched := ?watched
      nodup := ?nodup
      opened := ?opened
      nonneg := ?nonneg
      echo := ?echo
      hd := ?hd }
  all_goals rw [accepted_clients]
  case watched =>
    by_cases hfree : 0 < s.free
    · exact (accepted_watched h hnonneg hfree).subperm.trans
        ((List.subperm_cons sd).2 h.watched |>.trans hcons.symm.subperm)
    · rw [accepted_watched_of_full h (by omega)]
      exact h.watched.trans (List.sublist_append_left _ _).subperm
  case nodup => exact hcons.nodup_iff.2 (List.nodup_cons.2 ⟨hnew, h.nodup⟩)
  case opened => exact (h.opened.cons sd).trans hcons.symm
  case nonneg =>
    intro fd hfd
    rcases List.mem_append.1 hfd with hfd | hfd
    · exact h.nonneg fd hfd
    · rwa [List.mem_singleton.1 hfd]
  case echo => simp [h.echo, Ne.symm he]
  case hd => simp [h.hd, Ne.symm hh]

theorem wired_closed (h : Wired ls s) (hsd : sd ∈ s.clients) : Wired ls (s.closed sd) := by
  refine
    { listeners := by rw [closed_sds h hsd, closed_slots h hsd]
      watched := ?watched
      nodup := ?nodup
      opened := ?opened
      nonneg := ?nonneg
      echo := ?echo
      hd := ?hd }
  all_goals rw [closed_clients]
  case watched => exact (closed_watched h hsd).subperm.trans (h.watched.erase sd)
  case nodup => exact h.nodup.erase sd
  case opened => exact h.opened.erase sd
  case nonneg => exact fun fd hfd => h.nonneg fd (List.mem_of_mem_erase hfd)
  case echo => exact fun hmem => h.echo (List.mem_of_mem_erase hmem)
  case hd => exact fun hmem => h.hd (List.mem_of_mem_erase hmem)

/-- Nothing of `Wired` is about the timeouts. -/
theorem wired_congr (h : Wired ls s) (hsds : s'.sds = s.sds) (hclients : s'.clients = s.clients)
    (hopened : s'.opened = s.opened) : Wired ls s' := by
  have hslots : s'.slots = s.slots := by rw [Server.slots, hsds, Server.slots]
  have hwatched : s'.watched = s.watched := by rw [Server.watched, hslots, Server.watched]
  exact
    { listeners := by rw [hsds, hslots, ← h.listeners]
      watched := by rw [hwatched, hclients]; exact h.watched
      nodup := by rw [hclients]; exact h.nodup
      opened := by rw [hclients, hopened]; exact h.opened
      nonneg := by rw [hclients]; exact h.nonneg
      echo := by rw [hclients]; exact h.echo
      hd := by rw [hclients]; exact h.hd }

theorem wired_received (h : Wired ls s) : Wired ls (s.received sd) :=
  wired_congr h rfl received_clients rfl

theorem wired_polled (h : Wired ls s) : Wired ls (s.polled rd) :=
  wired_congr h rfl polled_clients rfl

/-! ## Which event an entry or a connection causes -/

/-- What can happen to the tables. -/
inductive Event (ls : Listeners) (s : Server) : Server → Prop
  | accept {sd : ℤ} {service : Service} (h : Fresh ls s sd) : Event ls s (s.accepted sd service)
  | close {sd : ℤ} (h : sd ∈ s.clients) : Event ls s (s.closed sd)
  | receive {sd : ℤ} (h : sd ∈ s.clients) : Event ls s (s.received sd)

theorem wired_event (h : Wired ls s) (he : Event ls s s') : Wired ls s' := by
  cases he with
  | accept hsd => exact wired_accepted h hsd
  | close hsd => exact wired_closed h hsd
  | receive => exact wired_received h

/-- `closeClient` closes a client of the list, or ends the program. -/
theorem closeClient_eq_some (hs : closeClient rd s sd = some s') :
    sd ∈ s.clients ∧ s' = s.closed sd := by
  unfold closeClient at hs
  split_ifs at hs with h1 h2 hfind
  rw [findSd_eq_none, not_not] at hfind
  exact ⟨hfind, (Option.some.inj hs).symm⟩

/-- `accept` gives a new descriptor, or ends the program. -/
theorem acceptClient_eq_some (hs : acceptClient ls rd i service s = some s') :
    ∃ sd, Fresh ls s sd ∧ s' = s.accepted sd service := by
  unfold acceptClient at hs
  simp only at hs
  split_ifs at hs with hneg
  exact ⟨_, ⟨not_lt.1 hneg, rd.accept_fresh i _⟩, (Option.some.inj hs).symm⟩

/-- `recv` closes a client of the list, or starts its timeout again. -/
theorem receive_eq_some (hs : receive rd i fd s = some s') :
    fd ∈ s.clients ∧ (s' = s.closed fd ∨ s' = s.received fd) := by
  unfold receive at hs
  split_ifs at hs with h1 h2 hfind
  · obtain ⟨hmem, heq⟩ := closeClient_eq_some hs
    exact ⟨hmem, Or.inl heq⟩
  · rw [findSd_eq_none, not_not] at hfind
    exact ⟨hfind, Or.inr (Option.some.inj hs).symm⟩

/-- The first entries are the listening sockets, which are no clients. -/
theorem Wired.listener (h : Wired ls s) (hi : i < serviceCount) :
    0 ≤ s.sds.getD i (-1) ∧ s.sds.getD i (-1) ∉ s.clients ∧
      (s.sds.getD i (-1) = ls.echoSock ∨ s.sds.getD i (-1) = ls.hdSock) := by
  have hi' : i = 0 ∨ i = 1 := by
    unfold serviceCount at hi
    omega
  rw [h.listeners]
  rcases hi' with rfl | rfl
  · exact ⟨ls.echo_nonneg, h.echo, Or.inl rfl⟩
  · exact ⟨ls.hd_nonneg, h.hd, Or.inr rfl⟩

theorem getD_mem_slots (hi : serviceCount ≤ i) (hnonneg : 0 ≤ s.sds.getD i (-1)) :
    s.sds.getD i (-1) ∈ s.slots := by
  have hlt : i < s.sds.length := by
    by_contra hge
    rw [List.getD_eq_default _ _ (not_lt.1 hge)] at hnonneg
    exact absurd hnonneg (by decide)
  rw [List.getD_eq_getElem _ _ hlt, Server.slots, List.mem_drop_iff_getElem]
  exact ⟨i - serviceCount, by omega, by congr 1; omega⟩

/-- A listening socket accepts a client if it reports one, and does nothing otherwise. -/
theorem listener_cases (h : Wired ls s) (hi : i < serviceCount)
    (hs : handle ls rd revents s i = some s') :
    (revents i).pollin = false ∧ s' = s ∨
      (revents i).pollin = true ∧ ∃ sd service, Fresh ls s sd ∧ s' = s.accepted sd service := by
  obtain ⟨hnonneg, hclient, hsock⟩ := h.listener hi
  unfold handle at hs
  simp only at hs
  split_ifs at hs with hskip hhup hin hecho hhd
  · refine Or.inl ⟨?_, (Option.some.inj hs).symm⟩
    rw [hskip.resolve_left (not_lt.2 hnonneg)]
    rfl
  · exact absurd (closeClient_eq_some hs).1 hclient
  · obtain ⟨sd, hfresh, heq⟩ := acceptClient_eq_some hs
    exact Or.inr ⟨hin, sd, _, hfresh, heq⟩
  · obtain ⟨sd, hfresh, heq⟩ := acceptClient_eq_some hs
    exact Or.inr ⟨hin, sd, _, hfresh, heq⟩
  · exact absurd hsock (not_or.2 ⟨hecho, hhd⟩)
  · exact Or.inl ⟨by simpa using hin, (Option.some.inj hs).symm⟩

/-- The entry of a client closes this client, hears of it, or does nothing. -/
theorem client_cases (h : Wired ls s) (hi : serviceCount ≤ i)
    (hs : handle ls rd revents s i = some s') :
    s' = s ∨ ∃ fd ∈ s.watched, fd ∈ s.clients ∧ (s' = s.closed fd ∨ s' = s.received fd) := by
  unfold handle at hs
  simp only at hs
  split_ifs at hs with hskip hhup hin hecho hhd
  · exact Or.inl (Option.some.inj hs).symm
  all_goals
    have hnonneg := not_lt.1 (not_or.1 hskip).1
    have hwatched : s.sds.getD i (-1) ∈ s.watched :=
      List.mem_filter.2 ⟨getD_mem_slots hi hnonneg, decide_eq_true hnonneg⟩
    have hmem := h.watched.subset hwatched
  · exact Or.inr ⟨_, hwatched, hmem, Or.inl (closeClient_eq_some hs).2⟩
  · exact absurd (hecho ▸ hmem) h.echo
  · exact absurd (hhd ▸ hmem) h.hd
  · exact Or.inr ⟨_, hwatched, hmem, (receive_eq_some hs).2⟩
  · exact Or.inl (Option.some.inj hs).symm

/-- The sweep closes the connections that have timed out, and no others. -/
theorem sweep_cases {c : Connection} (hs : sweep rd s c = some s') :
    0 < c.timeout ∧ s' = s ∨ c.timeout ≤ 0 ∧ c.sd ∈ s.clients ∧ s' = s.closed c.sd := by
  unfold sweep at hs
  split_ifs at hs with hle
  · exact Or.inr ⟨hle, closeClient_eq_some hs⟩
  · exact Or.inl ⟨not_le.1 hle, (Option.some.inj hs).symm⟩

theorem handle_event (h : Wired ls s) (hs : handle ls rd revents s i = some s') :
    s' = s ∨ Event ls s s' := by
  by_cases hi : i < serviceCount
  · rcases listener_cases h hi hs with ⟨-, rfl⟩ | ⟨-, sd, service, hfresh, rfl⟩
    · exact Or.inl rfl
    · exact Or.inr (.accept hfresh)
  · rcases client_cases h (not_lt.1 hi) hs with rfl | ⟨fd, -, hmem, rfl | rfl⟩
    · exact Or.inl rfl
    · exact Or.inr (.close hmem)
    · exact Or.inr (.receive hmem)

theorem wired_handle (h : Wired ls s) (hs : handle ls rd revents s i = some s') : Wired ls s' := by
  rcases handle_event h hs with rfl | he
  · exact h
  · exact wired_event h he

/-! ## A whole pass -/

/-- The parts of a pass after which the loop goes on. -/
theorem step_eq_some (hs : step ls s rd = some s') :
    ¬ rd.pollRet s.sds < 0 ∧ ¬ (rd.pollRet s.sds = 0 ∧ (s.polled rd).serverTimeout ≤ 0) ∧
      ∃ m, (List.range (maxConn + serviceCount)).foldlM (handle ls rd (rd.reported s.sds))
          (s.polled rd) = some m ∧
        m.conns.foldlM (sweep rd) m = some s' := by
  unfold step at hs
  split_ifs at hs with h1 h2
  rw [Option.bind_eq_bind, Option.bind_eq_some_iff] at hs
  exact ⟨h1, h2, hs⟩

/-- The induction over the loop over `sds`. -/
theorem handle_invariant {I : Server → Prop} {l : List ℕ} (h : Wired ls s) (h0 : I s)
    (hs : l.foldlM (handle ls rd revents) s = some s')
    (hI : ∀ s, ∀ i ∈ l, ∀ s', Wired ls s → I s → handle ls rd revents s i = some s' → I s') :
    Wired ls s' ∧ I s' := by
  refine Run.foldlM_invariant (I := fun s => Wired ls s ∧ I s) hs ⟨h, h0⟩ ?_
  rintro s i hi s' ⟨h, h0⟩ hs
  exact ⟨wired_handle h hs, hI s i hi s' h h0 hs⟩

/-- The induction over the loop over `conns`. -/
theorem sweep_invariant {I : Server → Prop} {l : List Connection} (h : Wired ls s) (h0 : I s)
    (hs : l.foldlM (sweep rd) s = some s')
    (hI : ∀ s, ∀ c ∈ l, ∀ s', Wired ls s → I s → sweep rd s c = some s' → I s') :
    Wired ls s' ∧ I s' := by
  refine Run.foldlM_invariant (I := fun s => Wired ls s ∧ I s) hs ⟨h, h0⟩ ?_
  rintro s c hc s' ⟨h, h0⟩ hs
  refine ⟨?_, hI s c hc s' h h0 hs⟩
  rcases sweep_cases hs with ⟨-, rfl⟩ | ⟨-, hmem, rfl⟩
  · exact h
  · exact wired_closed h hmem

/-- The loop over the entries keeps the tables wired. -/
theorem wired_loop {l : List ℕ} (h : Wired ls s)
    (hs : l.foldlM (handle ls rd revents) s = some s') : Wired ls s' :=
  (handle_invariant (I := fun _ => True) h trivial hs fun _ _ _ _ _ _ _ => trivial).1

/-- A pass keeps the tables wired. -/
theorem wired_step (h : Wired ls s) (hs : step ls s rd = some s') : Wired ls s' := by
  obtain ⟨-, -, m, hm, hs⟩ := step_eq_some hs
  exact (sweep_invariant (I := fun _ => True) (wired_loop (wired_polled h) hm) trivial hs
    fun _ _ _ _ _ _ _ => trivial).1

end Sem3.Poll
