import Sem3.MsgArray.Spec

/-!
# Proofs: arrays by messages

While the server answers, exactly one client waits for the answer, on a channel of its own (`Good`).
This remains so unless a request for an element that is not there reaches the server, which then ends
with an exception.
-/

namespace Sem3.MsgArray

open Ocaml (Exn)
open Rendezvous (Config Label step)

variable {α : Type*} {S S' s s' r : Local α} {cs : List (Local α)} {n n' i j ch : ℕ} {l : List α}
  {c c' : Config (Local α)}

/-! ## Clients -/

/-- The channel that a client has made for the answer. -/
def Local.channel : Local α → Option ℕ
  | .sizeSend _ ch => some ch
  | .sizeReceive _ ch => some ch
  | .getSend _ ch => some ch
  | .getReceive _ ch => some ch
  | _ => none

/-- The client waits for this answer. -/
inductive Waits : Local α → ℕ → Msg α → Prop
  | size {op : Op α} {ch : ℕ} {n : ℤ} : Waits (.sizeReceive op ch) ch (.len n)
  | get {i : ℤ} {ch : ℕ} {v : α} : Waits (.getReceive i ch) ch (.elem v)

/-- The client waits on this channel. -/
def Local.waitsOn : Local α → Option ℕ
  | .sizeReceive _ ch => some ch
  | .getReceive _ ch => some ch
  | _ => none

/-- A client that makes no call that is not allowed. -/
def Local.IsClient : Local α → Prop
  | .serve _ => False
  | .reply _ _ _ => False
  | .exited => False
  | .died _ => False
  | .resizeSend i _ => 0 ≤ i
  | .destroySend => False
  | _ => True

/-- The server waits, or answers. -/
inductive IsServer : Local α → Prop
  | serve {l : List α} : IsServer (.serve l)
  | reply {ch : ℕ} {m : Msg α} {l : List α} : IsServer (.reply ch m l)

/-- The states of the server and of the clients, and the next new channel. -/
structure Good (S : Local α) (cs : List (Local α)) (n : ℕ) : Prop where
  server : IsServer S
  next : arr < n
  client : ∀ (i : ℕ) (s : Local α), cs[i]? = some s → s.IsClient
  fresh : ∀ (i : ℕ) (s : Local α) (ch : ℕ), cs[i]? = some s → s.channel = some ch → arr < ch ∧ ch < n
  distinct : ∀ (i j : ℕ) (s r : Local α) (ch : ℕ), cs[i]? = some s → cs[j]? = some r →
    s.channel = some ch → r.channel = some ch → i = j
  waiting : ∀ (i : ℕ) (s : Local α) (ch : ℕ), cs[i]? = some s → s.waitsOn = some ch →
    ∃ m l, S = .reply ch m l ∧ Waits s ch m
  replying : ∀ ch m l, S = .reply ch m l → ∃ (i : ℕ) (s : Local α), cs[i]? = some s ∧ Waits s ch m

/-- A client that waits for an answer waits on its channel. -/
theorem Waits.waitsOn {m : Msg α} (h : Waits s ch m) : s.waitsOn = some ch := by
  cases h <;> rfl

/-- The channel that a client waits on is its own. -/
theorem channel_of_waitsOn (h : s.waitsOn = some ch) : s.channel = some ch := by
  unfold Local.waitsOn at h
  split at h <;> first | exact h | cases h

theorem good_start (l : List α) (k : ℕ) :
    Good (.serve l) (List.replicate k (.idle none)) (arr + 1) := by
  have hidle : ∀ (i : ℕ) (s : Local α), (List.replicate k (.idle none))[i]? = some s →
      s = .idle none := by
    intro i s hs
    exact (List.mem_replicate.1 (List.mem_of_getElem? hs)).2
  constructor
  · exact .serve
  · exact Nat.lt_succ_self arr
  · intro i s hs
    obtain rfl := hidle i s hs
    trivial
  · intro i s ch hs hch
    obtain rfl := hidle i s hs
    cases hch
  · intro i j s r ch hs hr hch
    obtain rfl := hidle i s hs
    cases hch
  · intro i s ch hs hch
    obtain rfl := hidle i s hs
    cases hch
  · rintro ch m l ⟨⟩

/-- One client goes on, and perhaps the server. -/
theorem Good.update (h : Good S cs n) (hi : cs[i]? = some s) (hn : n ≤ n') (hserver : IsServer S')
    (hclient : s'.IsClient)
    (hchannel : ∀ ch, s'.channel = some ch → s.channel = some ch ∨ ch = n ∧ n < n')
    (hothers : ∀ (j : ℕ) (r : Local α) (ch : ℕ), j ≠ i → cs[j]? = some r → r.waitsOn = some ch →
      ∃ m l, S' = .reply ch m l ∧ Waits r ch m)
    (hself : ∀ ch, s'.waitsOn = some ch → ∃ m l, S' = .reply ch m l ∧ Waits s' ch m)
    (hreply : ∀ ch m l, S' = .reply ch m l →
      Waits s' ch m ∨ ∃ (j : ℕ) (r : Local α), j ≠ i ∧ cs[j]? = some r ∧ Waits r ch m) :
    Good S' (cs.set i s') n' := by
  have hlt : i < cs.length := (List.getElem?_eq_some_iff.1 hi).1
  have hset : ∀ (j : ℕ) (r : Local α), (cs.set i s')[j]? = some r →
      j = i ∧ r = s' ∨ j ≠ i ∧ cs[j]? = some r := by
    intro j r hr
    by_cases hij : i = j
    · subst hij
      rw [List.getElem?_set_self hlt] at hr
      exact .inl ⟨rfl, (Option.some.inj hr).symm⟩
    · rw [List.getElem?_set_ne hij] at hr
      exact .inr ⟨Ne.symm hij, hr⟩
  constructor
  · exact hserver
  · exact h.next.trans_le hn
  · intro j r hr
    rcases hset j r hr with ⟨-, rfl⟩ | ⟨-, hr⟩
    · exact hclient
    · exact h.client j r hr
  · intro j r ch hr hch
    rcases hset j r hr with ⟨-, rfl⟩ | ⟨-, hr⟩
    · rcases hchannel ch hch with hch | ⟨rfl, hlt⟩
      · have := h.fresh i s ch hi hch
        omega
      · exact ⟨h.next, hlt⟩
    · have := h.fresh j r ch hr hch
      omega
  · -- a new channel is none of the others
    have hother : ∀ (j : ℕ) (r : Local α) (ch : ℕ), j ≠ i → cs[j]? = some r → s'.channel = some ch →
        r.channel = some ch → False := by
      intro j r ch hji hr hch hch'
      rcases hchannel ch hch with hch | ⟨rfl, -⟩
      · exact hji (h.distinct j i r s ch hr hi hch' hch)
      · have := h.fresh j r ch hr hch'
        omega
    intro j k r q ch hr hq hch hch'
    rcases hset j r hr with ⟨rfl, rfl⟩ | ⟨hj, hr'⟩ <;>
      rcases hset k q hq with ⟨rfl, rfl⟩ | ⟨hk, hq'⟩
    · rfl
    · exact (hother k q ch hk hq' hch hch').elim
    · exact (hother j r ch hj hr' hch' hch).elim
    · exact h.distinct j k r q ch hr' hq' hch hch'
  · intro j r ch hr hch
    rcases hset j r hr with ⟨-, rfl⟩ | ⟨hj, hr⟩
    · exact hself ch hch
    · exact hothers j r ch hj hr hch
  · intro ch m l hS'
    rcases hreply ch m l hS' with hwaits | ⟨j, r, hj, hr, hwaits⟩
    · exact ⟨i, s', List.getElem?_set_self hlt, hwaits⟩
    · exact ⟨j, r, by rwa [List.getElem?_set_ne (Ne.symm hj)], hwaits⟩

/-- One client goes on, and the server does not: the client waits neither before nor behind it. -/
theorem Good.quiet (h : Good S cs n) (hi : cs[i]? = some s) (hn : n ≤ n') (hclient : s'.IsClient)
    (hs : s.waitsOn = none) (hs' : s'.waitsOn = none)
    (hchannel : ∀ ch, s'.channel = some ch → s.channel = some ch ∨ ch = n ∧ n < n') :
    Good S (cs.set i s') n' := by
  refine h.update hi hn h.server hclient hchannel (fun j r ch _ => h.waiting j r ch) ?_ ?_
  · intro ch hch
    rw [hs'] at hch
    cases hch
  · intro ch m l hS
    obtain ⟨j, r, hr, hwaits⟩ := h.replying ch m l hS
    refine .inr ⟨j, r, ?_, hr, hwaits⟩
    rintro rfl
    rw [hi] at hr
    obtain rfl := Option.some.inj hr
    rw [hwaits.waitsOn] at hs
    cases hs

/-! ## Steps -/

theorem act_ne_tau : act s ≠ .tau s' := by
  cases s <;> rintro ⟨⟩

theorem act_ne_fork : act s ≠ .fork r s' := by
  cases s <;> rintro ⟨⟩

theorem Good.step_act (h : Good S cs n)
    (hs : step act ⟨S :: cs, n⟩ (.act i) = some c') :
    ∃ S' cs' n', c' = ⟨S' :: cs', n'⟩ ∧ Good S' cs' n' := by
  obtain ⟨s, hi, ⟨s', hact, -⟩ | ⟨k, hact, rfl⟩ | ⟨child, s', hact, -⟩⟩ := Rendezvous.step_act hs
  · exact absurd hact act_ne_tau
  · rcases i with _ | i
    · obtain rfl := Option.some.inj hi
      rcases h.server <;> cases hact
    · refine ⟨S, _, _, rfl, ?_⟩
      cases s <;> cases hact
      · exact h.quiet hi (Nat.le_succ n) trivial rfl rfl fun ch hch =>
          .inr ⟨(Option.some.inj hch).symm, Nat.lt_succ_self n⟩
      · exact h.quiet hi (Nat.le_succ n) trivial rfl rfl fun ch hch =>
          .inr ⟨(Option.some.inj hch).symm, Nat.lt_succ_self n⟩
  · exact absurd hact act_ne_fork

theorem Good.step_input (h : Good S cs n) {op : Op α} (hop : op.Allowed)
    (hs : step act ⟨S :: cs, n⟩ (.input i op) = some c') :
    ∃ S' cs' n', c' = ⟨S' :: cs', n'⟩ ∧ Good S' cs' n' := by
  obtain ⟨s, k, hi, hact, rfl⟩ := Rendezvous.step_input hs
  rcases i with _ | i
  · obtain rfl := Option.some.inj hi
    rcases h.server <;> cases hact
  · refine ⟨S, _, _, rfl, ?_⟩
    cases s <;> cases hact
    cases op with
    | destroy => exact hop.elim
    | resize i v => exact h.quiet hi le_rfl hop rfl rfl fun ch hch => by cases hch
    | _ => exact h.quiet hi le_rfl trivial rfl rfl fun ch hch => by cases hch

/-- The server answers a client, which goes on. -/
theorem Good.answered {m : Msg α} (h : Good (.reply ch m l) cs n) (hi : cs[i]? = some s)
    (hs : s.waitsOn = some ch) (hclient : s'.IsClient) (hs' : s'.channel = none) :
    Good (.serve l) (cs.set i s') n := by
  refine h.update hi le_rfl .serve hclient (fun ch hch => ?_) (fun j r ch' hj hr hch' => ?_)
    (fun ch hch => ?_) fun ch m l => by rintro ⟨⟩
  · rw [hs'] at hch
    cases hch
  · -- no other client waits
    obtain ⟨m', l', heq, -⟩ := h.waiting j r ch' hr hch'
    cases heq
    exact absurd (h.distinct j i r s ch hr hi (channel_of_waitsOn hch') (channel_of_waitsOn hs)) hj
  · rw [channel_of_waitsOn hch] at hs'
    cases hs'

/-- The server takes a request that it answers. -/
theorem Good.requested {m : Msg α} (h : Good (.serve l) cs n) (hi : cs[i]? = some s)
    (hs : s.channel = some ch) (hclient : s'.IsClient) (hwaits : Waits s' ch m) :
    Good (.reply ch m l) (cs.set i s') n := by
  refine h.update hi le_rfl .reply hclient (fun ch' hch => ?_) (fun j r ch' _ hr hch' => ?_)
    (fun ch' hch => ?_) fun ch' m' l' heq => ?_
  · rw [channel_of_waitsOn hwaits.waitsOn] at hch
    exact .inl (hs.trans hch)
  · obtain ⟨m', l', heq, -⟩ := h.waiting j r ch' hr hch'
    cases heq
  · rw [hwaits.waitsOn] at hch
    cases hch
    exact ⟨m, l, rfl, hwaits⟩
  · cases heq
    exact .inl hwaits

/-- The server takes a request that it does not answer. -/
theorem Good.commanded {l' : List α} (h : Good (.serve l) cs n) (hi : cs[i]? = some s)
    {out : Option (Outcome α)} : Good (.serve l') (cs.set i (.idle out)) n := by
  refine h.update hi le_rfl .serve trivial (fun ch hch => by cases hch)
    (fun j r ch _ hr hch => ?_) (fun ch hch => by cases hch) fun ch m l => by rintro ⟨⟩
  obtain ⟨m, l', heq, -⟩ := h.waiting j r ch hr hch
  cases heq

theorem withSize_isClient (n : ℤ) (op : Op α) :
    (withSize n op).IsClient ∧ (withSize n op).channel = none := by
  unfold withSize
  split <;> (try split) <;> exact ⟨trivial, rfl⟩

/-- The server answers a request for an element that is there. -/
theorem serve_get (ch : ℕ) {k : ℤ} {v : α} (hk : 0 ≤ k) (hv : l[k.toNat]? = some v) :
    serve l (.get ch k) = .reply ch (.elem v) l := by
  rw [serve, Ocaml.nth, if_neg (not_lt.2 hk), hv]

/-- The server ends with an exception if the element is not there. -/
theorem serve_get_of_not (ch : ℕ) {k : ℤ} (h : ¬ (0 ≤ k ∧ k < l.length)) :
    ∃ e, serve l (.get ch k) = .died e := by
  rw [← Ocaml.exists_nth_iff] at h
  cases hnth : Ocaml.nth l k with
  | ok v => exact absurd ⟨v, hnth⟩ h
  | error e => exact ⟨e, by rw [serve, hnth]⟩

/-- At a negative index nothing is set. -/
theorem serve_set (k : ℤ) (v : α) :
    serve l (.set k v) = .serve (if 0 ≤ k then l.set k.toNat v else l) := by
  rw [serve, Ocaml.init_eq (l := if 0 ≤ k then l.set k.toNat v else l)]
  · rfl
  · split_ifs
    · rw [List.length_set]
    · rfl
  · intro j hj
    split_ifs at hj ⊢ with hjk hk hk
    · simp [← hjk]
    · omega
    · rw [List.length_set] at hj
      rw [List.getElem_set_ne (by omega)]
      exact Ocaml.nth_of_lt hj
    · exact Ocaml.nth_of_lt hj

/-- A length that is not negative gives the elements of the plain array. -/
theorem serve_resize {k : ℤ} (hk : 0 ≤ k) (v : α) :
    serve l (.resize k v) = .serve (plain l (.resize k v)).1 := by
  rw [serve, Ocaml.init_eq (l := (plain l (.resize k v)).1)]
  · rfl
  · simp only [plain, List.length_append, List.length_take, List.length_replicate]
    omega
  · intro j hj
    simp only [plain, List.length_append, List.length_take, List.length_replicate] at hj
    simp only [plain, List.getElem_append, List.length_take, List.getElem_take,
      List.getElem_replicate]
    split_ifs with h h' h'
    · omega
    · rfl
    · exact Ocaml.nth_of_lt (by omega)
    · omega

/-- Only the server receives on the channel of the array. -/
theorem Good.receiver (h : Good S cs n) {k : Msg α → Local α} (hj : (S :: cs)[j]? = some r)
    (hrecv : act r = .recv arr k) :
    j = 0 ∧ ∃ l, S = .serve l ∧ k = fun m => match m with
      | .req r => serve l r
      | _ => .serve l := by
  rcases j with _ | j
  · obtain rfl := Option.some.inj hj
    rcases h.server with ⟨⟩ | ⟨⟩
    · cases hrecv
      exact ⟨rfl, _, rfl, rfl⟩
    · cases hrecv
  · have hclient := h.client j r hj
    cases r <;> cases hrecv
    · cases hclient
    · exact absurd (h.fresh j _ arr hj rfl).1 (lt_irrefl arr)
    · exact absurd (h.fresh j _ arr hj rfl).1 (lt_irrefl arr)

/-- A message keeps the states if the element that it asks for is there. -/
theorem Good.step_comm (h : Good S cs n) (hr : InRange ⟨S :: cs, n⟩ (.comm i j))
    (hs : step act ⟨S :: cs, n⟩ (.comm i j) = some c') :
    ∃ S' cs' n', c' = ⟨S' :: cs', n'⟩ ∧ Good S' cs' n' := by
  obtain ⟨s, r, ch, m, s', k, ⟨hi, hsend⟩, ⟨hj, hrecv⟩, rfl⟩ := Rendezvous.step_comm hs
  rcases i with _ | i
  · -- the server answers
    obtain rfl := Option.some.inj hi
    rcases h.server with ⟨⟩ | ⟨⟩
    · cases hsend
    · cases hsend
      rcases j with _ | j
      · obtain rfl := Option.some.inj hj
        cases hrecv
      · refine ⟨_, _, _, rfl, ?_⟩
        have hclient := h.client j r hj
        cases r <;> cases hrecv
        · cases hclient
        · obtain ⟨m', l', heq, hwaits⟩ := h.waiting j _ _ hj rfl
          cases heq
          cases hwaits
          exact h.answered hj rfl (withSize_isClient _ _).1 (withSize_isClient _ _).2
        · obtain ⟨m', l', heq, hwaits⟩ := h.waiting j _ _ hj rfl
          cases heq
          cases hwaits
          exact h.answered hj rfl trivial rfl
  · -- a client sends a request
    have hclient := h.client i s hi
    cases s <;> cases hsend
    · cases hclient
    · obtain ⟨rfl, l, rfl, rfl⟩ := h.receiver hj hrecv
      exact ⟨_, _, _, rfl, h.requested hi rfl trivial .size⟩
    · obtain ⟨rfl, l, rfl, rfl⟩ := h.receiver hj hrecv
      obtain ⟨hk, hlt⟩ := hr _ _ l hi rfl
      have hv := List.getElem?_eq_getElem ((Int.toNat_lt hk).2 hlt)
      refine ⟨_, _, _, rfl, ?_⟩
      show Good (serve l _) _ n
      rw [serve_get _ hk hv]
      exact h.requested hi rfl trivial .get
    · obtain ⟨rfl, l, rfl, rfl⟩ := h.receiver hj hrecv
      refine ⟨_, _, _, rfl, ?_⟩
      show Good (serve l _) _ n
      rw [serve_set]
      exact h.commanded hi
    · obtain ⟨rfl, l, rfl, rfl⟩ := h.receiver hj hrecv
      refine ⟨_, _, _, rfl, ?_⟩
      show Good (serve l _) _ n
      rw [serve_resize hclient]
      exact h.commanded hi
    · cases hclient

/-- A step of a client that is allowed and asks for no element that is not there. -/
theorem Good.step {t : Label (Op α)} (h : Good S cs n) (hl : Allowed t)
    (hr : InRange ⟨S :: cs, n⟩ t) (hs : step act ⟨S :: cs, n⟩ t = some c') :
    ∃ S' cs' n', c' = ⟨S' :: cs', n'⟩ ∧ Good S' cs' n' := by
  cases t with
  | act i => exact h.step_act hs
  | input i op => exact h.step_input hl hs
  | comm i j => exact h.step_comm hr hs

/-! ## Progress -/

/-- A client in the middle of a call can go on when the server waits. -/
theorem Good.progress_serve (h : Good (.serve l) cs n) (hi : cs[i]? = some s) (hbusy : s.Busy) :
    ∃ t c', Internal t ∧ Rendezvous.step act ⟨.serve l :: cs, n⟩ t = some c' := by
  have hi' : (Local.serve l :: cs)[i + 1]? = some s := hi
  have hsend : ∀ m s', act s = .send arr m s' →
      ∃ t c', Internal t ∧ Rendezvous.step act ⟨.serve l :: cs, n⟩ t = some c' := fun m s' hact =>
    ⟨.comm (i + 1) 0, _, by rintro _ _ ⟨⟩, Rendezvous.step_send hi' hact rfl rfl⟩
  have hwait : ∀ ch, s.waitsOn = some ch → False := by
    intro ch hch
    obtain ⟨m, l', heq, -⟩ := h.waiting i s ch hi hch
    cases heq
  cases s with
  | serve | reply | exited | died | idle => exact hbusy.elim
  | sizeNew op => exact ⟨.act (i + 1), _, by rintro _ _ ⟨⟩, Rendezvous.step_fresh hi' rfl⟩
  | getNew k => exact ⟨.act (i + 1), _, by rintro _ _ ⟨⟩, Rendezvous.step_fresh hi' rfl⟩
  | sizeSend | getSend | setSend | resizeSend | destroySend => exact hsend _ _ rfl
  | sizeReceive op ch => exact (hwait ch rfl).elim
  | getReceive k ch => exact (hwait ch rfl).elim

/-- The server can answer. -/
theorem Good.progress_reply {m : Msg α} (h : Good (.reply ch m l) cs n) :
    ∃ t c', Internal t ∧ Rendezvous.step act ⟨.reply ch m l :: cs, n⟩ t = some c' := by
  obtain ⟨i, s, hi, hwaits⟩ := h.replying ch m l rfl
  have hi' : (Local.reply ch m l :: cs)[i + 1]? = some s := hi
  cases hwaits with
  | size => exact ⟨.comm 0 (i + 1), _, by rintro _ _ ⟨⟩, Rendezvous.step_send rfl rfl hi' rfl⟩
  | get => exact ⟨.comm 0 (i + 1), _, by rintro _ _ ⟨⟩, Rendezvous.step_send rfl rfl hi' rfl⟩

/-- What a message adds to the work of the one that receives it. -/
def Msg.work : Msg α → ℕ
  | .req (.get _ _) => 1
  | .req (.size _) => 1
  | _ => 0

/-- A bound on the steps that are left of a call when the size has been received. -/
def Op.work : Op α → ℕ
  | .get _ => 3
  | .set _ _ => 1
  | _ => 0

/-- A bound on the steps that a thread has left, if there are no new calls. -/
def Local.work : Local α → ℕ
  | .reply _ m _ => m.work + 1
  | .sizeNew op => op.work + 3
  | .sizeSend op _ => op.work + 2
  | .sizeReceive op _ => op.work
  | .getNew _ => 3
  | .getSend _ _ => 2
  | .setSend _ _ => 1
  | .resizeSend _ _ => 1
  | .destroySend => 1
  | _ => 0

theorem work_withSize (k : ℤ) (op : Op α) : (withSize k op).work ≤ op.work := by
  unfold withSize
  split <;> (try split_ifs) <;> simp [Local.work, Op.work]

theorem work_ofResult (r : Except Exn (List α)) : (Local.ofResult r).work = 0 := by
  cases r <;> rfl

/-- The answer of the server is no more work than the request has brought. -/
theorem work_serve (l : List α) (q : Req α) : (serve l q).work ≤ (Msg.req q).work := by
  cases q with
  | get ch i =>
    rw [serve]
    split
    · exact le_rfl
    · exact Nat.zero_le _
  | set i v => exact (work_ofResult _).le
  | resize i v => exact (work_ofResult _).le
  | size ch => exact le_rfl
  | exit => exact le_rfl

/-- Sending a message uses more work than the message brings. -/
theorem work_send {m : Msg α} (h : act s = .send ch m s') : s'.work + m.work < s.work := by
  cases s <;> cases h <;> simp [Local.work, Msg.work]

/-- Receiving a message adds no more work than the message brings. -/
theorem work_recv {k : Msg α → Local α} (h : act r = .recv ch k) (m : Msg α) :
    (k m).work ≤ r.work + m.work := by
  cases r <;> cases h
  · cases m with
    | req q => simpa [Local.work] using work_serve _ q
    | _ => simp [Local.work]
  · cases m with
    | len k => exact (work_withSize _ _).trans (Nat.le_add_right _ _)
    | _ => exact Nat.le_add_right _ _
  · cases m <;> simp [Local.work]

/-- Every step of the threads decreases the work that is left. -/
theorem decreases_work : Rendezvous.Decreases (act (α := α)) Local.work where
  tau := fun s s' h => absurd h act_ne_tau
  fresh := by
    intro s k ch h
    cases s <;> cases h <;> simp [Local.work]
  fork := fun s child s' h => absurd h act_ne_fork
  comm := by
    intro s r ch m s' k hs hr
    have hsend := work_send hs
    have hrecv := work_recv hr m
    omega

theorem Good.robust (h : Good S cs n) : Robust ⟨S :: cs, n⟩ where
  alive := by
    intro e he
    obtain rfl := Option.some.inj he
    cases h.server
  progress := by
    intro i s hi hbusy
    rcases h.server with ⟨⟩ | ⟨⟩
    · rcases i with _ | i
      · obtain rfl := Option.some.inj hi
        exact hbusy.elim
      · exact h.progress_serve hi hbusy
    · exact h.progress_reply
  finishes := by
    refine ⟨((S :: cs).map Local.work).sum, fun steps c' hrun hinternal => ?_⟩
    have hlen := hrun.length_add_le (C := fun _ t => Internal t)
      (fun c => (c.threads.map Local.work).sum) (fun c t c' ht hs => decreases_work.sum_lt ht hs)
      hinternal
    exact (Nat.le_add_right _ _).trans hlen

/-! ## Requests that end the server -/

/-- A request for an element that is not there ends the server. -/
theorem Good.not_robust {t : Label (Op α)} (h : Good S cs n) (hr : ¬ InRange ⟨S :: cs, n⟩ t)
    (hs : Rendezvous.step act ⟨S :: cs, n⟩ t = some c') : ¬ Robust c' := by
  cases t with
  | act | input => exact absurd trivial hr
  | comm i j =>
    simp only [InRange, not_forall] at hr
    obtain ⟨k, ch, l, hi, hj, hk⟩ := hr
    obtain ⟨e, he⟩ := serve_get_of_not ch hk
    obtain ⟨s, r, ch', m, s', k', ⟨hi', hsend⟩, ⟨hj', hrecv⟩, rfl⟩ := Rendezvous.step_comm hs
    obtain rfl := Option.some.inj (hi.symm.trans hi')
    obtain rfl := Option.some.inj (hj.symm.trans hj')
    cases hsend
    cases hrecv
    obtain ⟨rfl, -⟩ := h.receiver hj rfl
    have hlt : 0 < ((S :: cs).set i (Local.getReceive k ch)).length := by simp
    intro hrobust
    refine hrobust.alive e ?_
    show (((S :: cs).set i (Local.getReceive k ch)).set 0 (serve l (.get ch k)))[0]? = _
    rw [List.getElem?_set_self hlt, he]

/-! ## Runs -/

/-- A new array is one that is started with equal elements. -/
theorem make_eq {k : ℤ} (hk : 0 ≤ k) (v : α) (clients : ℕ) :
    make k v clients = .ok (start (List.replicate k.toNat v) clients) := by
  rw [make, Ocaml.init_const hk]
  rfl

/-- A run with these labels only makes allowed calls. -/
theorem allowed_of_labels {steps : List (Config (Local α) × Label (Op α))}
    {ts : List (Label (Op α))} (h : steps.map Prod.snd = ts) (hts : ∀ t ∈ ts, Allowed t) :
    ∀ x ∈ steps, Allowed x.2 := by
  subst h
  exact fun x hx => hts x.2 (List.mem_map_of_mem hx)

/-- Whatever sizes, elements and new lengths that are not negative the clients of an array ask for,
and in whatever order, the array remains robust if and only if the server is never asked for an
element that is not in its list at that moment. -/
theorem robust_iff (l : List α) (clients : ℕ) {steps : List (Config (Local α) × Label (Op α))}
    {c : Config (Local α)} (h : Run (Rendezvous.step act) (start l clients) steps c)
    (hallowed : ∀ x ∈ steps, Allowed x.2) :
    (∀ x ∈ steps, Robust x.1) ∧ Robust c ↔ ∀ x ∈ steps, InRange x.1 x.2 := by
  refine h.forall_observed_iff_of (D := fun _ t => Allowed t)
    (G := fun c => ∃ S cs n, c = ⟨S :: cs, n⟩ ∧ Good S cs n) hallowed ?_ ?_ ?_ ?_
  · exact ⟨_, _, _, rfl, good_start l clients⟩
  · rintro _ ⟨S, cs, n, rfl, hgood⟩
    exact hgood.robust
  · rintro _ t c' ⟨S, cs, n, rfl, hgood⟩ ht hr hs
    exact hgood.step ht hr hs
  · rintro _ t c' ⟨S, cs, n, rfl, hgood⟩ - hr hs
    exact hgood.not_robust hr hs

/-- A client asks for the size, a second one sets the element then, and the first one gets the new
element. -/
theorem robust_iff_set_get :
    ∃ steps c, Run (Rendezvous.step act) (start [5] 2) steps c ∧
      c.threads = [.serve [7], .idle (some (.elem 7)), .idle (some .unit)] ∧
      ((∀ x ∈ steps, Robust x.1) ∧ Robust c ↔ ∀ x ∈ steps, InRange x.1 x.2) := by
  have hrun : ∃ steps c, Run (Rendezvous.step act) (start [5] 2) steps c ∧
      steps.map Prod.snd =
        [.input 1 (.get 0), .act 1, .comm 1 0, .comm 0 1, .input 2 (.set 0 7), .act 2, .comm 2 0,
          .comm 0 2, .comm 2 0, .act 1, .comm 1 0, .comm 0 1] ∧
      c.threads = [.serve [7], .idle (some (.elem 7)), .idle (some .unit)] :=
    ⟨_, _, .snoc (.snoc (.snoc (.snoc (.snoc (.snoc (.snoc (.snoc (.snoc (.snoc (.snoc (.snoc .init
      rfl) rfl) rfl) rfl) rfl) rfl) rfl) rfl) rfl) rfl) rfl) rfl, rfl, rfl⟩
  obtain ⟨steps, c, hrun, hlabels, hthreads⟩ := hrun
  have hallowed : ∀ x ∈ steps, Allowed x.2 := by
    refine allowed_of_labels hlabels ?_
    simp [Allowed, Op.Allowed]
  exact ⟨steps, c, hrun, hthreads, robust_iff [5] 2 hrun hallowed⟩

/-- The index of `get` is negative; or a second client makes the array empty, when the first one has
asked for its size. -/
theorem not_robust_get :
    (∃ steps c, Run (Rendezvous.step act) (start [5] 1) steps c ∧ (∀ x ∈ steps, Allowed x.2) ∧
      c.threads = [.died (.invalidArg "List.nth"), .getReceive (-1) 2] ∧ ¬ Robust c) ∧
    ∃ steps c, Run (Rendezvous.step act) (start [5] 2) steps c ∧ (∀ x ∈ steps, Allowed x.2) ∧
      c.threads = [.died (.failure "nth"), .getReceive 0 2, .idle (some .unit)] ∧ ¬ Robust c := by
  have hneg : ∃ steps c, Run (Rendezvous.step act) (start [5] 1) steps c ∧
      steps.map Prod.snd =
        [.input 1 (.get (-1)), .act 1, .comm 1 0, .comm 0 1, .act 1, .comm 1 0] ∧
      c.threads = [.died (.invalidArg "List.nth"), .getReceive (-1) 2] :=
    ⟨_, _, .snoc (.snoc (.snoc (.snoc (.snoc (.snoc .init rfl) rfl) rfl) rfl) rfl) rfl, rfl, rfl⟩
  have hresize : ∃ steps c, Run (Rendezvous.step act) (start [5] 2) steps c ∧
      steps.map Prod.snd =
        [.input 1 (.get 0), .act 1, .comm 1 0, .comm 0 1, .act 1, .input 2 (.resize 0 5),
          .comm 2 0, .comm 1 0] ∧
      c.threads = [.died (.failure "nth"), .getReceive 0 2, .idle (some .unit)] :=
    ⟨_, _,
      .snoc (.snoc (.snoc (.snoc (.snoc (.snoc (.snoc (.snoc .init rfl) rfl) rfl) rfl) rfl) rfl) rfl)
        rfl, rfl, rfl⟩
  refine ⟨?_, ?_⟩
  · obtain ⟨steps, c, hrun, hlabels, hthreads⟩ := hneg
    refine ⟨steps, c, hrun, allowed_of_labels hlabels ?_, hthreads, fun hrobust => ?_⟩
    · simp [Allowed, Op.Allowed]
    · exact hrobust.alive _ (by rw [hthreads]; rfl)
  · obtain ⟨steps, c, hrun, hlabels, hthreads⟩ := hresize
    refine ⟨steps, c, hrun, allowed_of_labels hlabels ?_, hthreads, fun hrobust => ?_⟩
    · simp [Allowed, Op.Allowed]
    · exact hrobust.alive _ (by rw [hthreads]; rfl)

end Sem3.MsgArray
