import Sem3.MsgArray.Proofs.ArrayProofs

/-!
# Proofs: a client with its own arrays

All servers wait for a request, but for the one that the client is calling. What that call will leave
and return is known from the two threads that take part in it (`Pending`), and no step of a call
changes it.
-/

namespace Sem3.MsgArray

open Ocaml (Exn)
open Rendezvous (Action Config Label step)

variable {α : Type*} {s s' S : Local α} {l l' : List α} {ls : List (List α)} {chans : List ℕ}
  {n a ch k : ℕ} {op : Op α} {out : Outcome α} {client t : Thread α}
  {c c' : Config (Thread α)} {label : Label (Call α)}

/-! ## A call that goes on -/

/-- A channel that is not that of an array. -/
def New (chans : List ℕ) (n ch : ℕ) : Prop := arr < ch ∧ ch < n ∧ ch ∉ chans

/-- The client and the server in the middle of a call, the elements that the array will have, and what
the call will return. -/
inductive Pending (chans : List ℕ) (n : ℕ) : Local α → Local α → List α → Outcome α → Prop
  | sizeNew {op : Op α} {l : List α} (hop : op.Plain) (hcall : call op = .sizeNew op) :
    Pending chans n (.sizeNew op) (.serve l) (plain l op).1 (plain l op).2
  | sizeSend {op : Op α} {l : List α} {ch : ℕ} (hop : op.Plain) (hcall : call op = .sizeNew op)
    (hch : New chans n ch) :
    Pending chans n (.sizeSend op ch) (.serve l) (plain l op).1 (plain l op).2
  | sizeReceive {op : Op α} {l : List α} {ch : ℕ} (hop : op.Plain) (hcall : call op = .sizeNew op)
    (hch : New chans n ch) :
    Pending chans n (.sizeReceive op ch) (.reply ch (.len l.length) l) (plain l op).1 (plain l op).2
  | getNew {i : ℤ} {l : List α} {v : α} (hi : 0 ≤ i) (hv : l[i.toNat]? = some v) :
    Pending chans n (.getNew i) (.serve l) l (.elem v)
  | getSend {i : ℤ} {l : List α} {v : α} {ch : ℕ} (hi : 0 ≤ i) (hv : l[i.toNat]? = some v)
    (hch : New chans n ch) : Pending chans n (.getSend i ch) (.serve l) l (.elem v)
  | getReceive {i : ℤ} {l : List α} {v : α} {ch : ℕ} (hch : New chans n ch) :
    Pending chans n (.getReceive i ch) (.reply ch (.elem v) l) l (.elem v)
  | setSend {i : ℤ} {l : List α} {v : α} (hi : 0 ≤ i) :
    Pending chans n (.setSend i v) (.serve l) (l.set i.toNat v) .unit
  | resizeSend {i : ℤ} {l : List α} {v : α} (hi : 0 ≤ i) :
    Pending chans n (.resizeSend i v) (.serve l) (plain l (.resize i v)).1 .unit

/-- The call goes on, or it has returned. -/
def Ending (chans : List ℕ) (n : ℕ) (s S : Local α) (l : List α) (out : Outcome α) : Prop :=
  Pending chans n s S l out ∨ s = .idle (some out) ∧ S = .serve l

theorem pending_call (hop : op.Plain) :
    Pending chans n (call op) (.serve l) (plain l op).1 (plain l op).2 := by
  cases op with
  | size => exact .sizeNew hop rfl
  | get i => exact .sizeNew hop rfl
  | set i v => exact .sizeNew hop rfl
  | resize i v => exact .resizeSend hop
  | destroy => exact hop.elim

/-- The client has received the size, and the index is checked. -/
theorem ending_withSize (hop : op.Plain) (hcall : call op = .sizeNew op) :
    Ending chans n (withSize l.length op) (.serve l) (plain l op).1 (plain l op).2 := by
  cases op with
  | size => exact .inr ⟨rfl, rfl⟩
  | get i =>
    simp only [withSize, plain]
    split_ifs with h
    · rw [List.getElem?_eq_none (by omega)]
      exact .inr ⟨rfl, rfl⟩
    · have hi : 0 ≤ i := hop
      rw [List.getElem?_eq_getElem (by omega)]
      exact .inl (.getNew hi (List.getElem?_eq_getElem _))
  | set i v =>
    simp only [withSize, plain]
    split_ifs with h h' h'
    · omega
    · exact .inr ⟨rfl, rfl⟩
    · exact .inl (.setSend hop)
    · omega
  | resize => cases hcall
  | destroy => cases hcall

/-! ## Servers -/

/-- The servers of the arrays with these channels and elements, none of which is called. -/
def servers (chans : List ℕ) (ls : List (List α)) : List (Thread α) :=
  List.zipWith (fun a l => .server a (.serve l)) chans ls

/-- Every thread behind the client is the server of an array. -/
theorem getElem?_servers {j : ℕ} (h : (servers chans ls)[j]? = some t) :
    ∃ b l, chans[j]? = some b ∧ ls[j]? = some l ∧ t = .server b (.serve l) := by
  rw [servers, List.getElem?_zipWith] at h
  cases hb : chans[j]? with
  | none => rw [hb] at h; cases h
  | some b =>
    cases hl : ls[j]? with
    | none => rw [hb, hl] at h; cases h
    | some l =>
      rw [hb, hl] at h
      exact ⟨b, l, rfl, rfl, (Option.some.inj h).symm⟩

/-- The array with the number `k` has other elements. -/
theorem servers_set (hk : chans[k]? = some a) :
    (servers chans ls).set k (.server a (.serve l)) = servers chans (ls.set k l) := by
  induction chans generalizing k ls with
  | nil => cases hk
  | cons b chans ih =>
    cases ls with
    | nil => rfl
    | cons l' ls =>
      cases k with
      | zero =>
        obtain rfl := Option.some.inj hk
        rfl
      | succ k => exact congrArg (_ :: ·) (ih hk)

/-! ## The client and the plain arrays -/

/-- The channels of the arrays are different, and the next one is none of them. -/
structure Names (chans : List ℕ) (n : ℕ) : Prop where
  nodup : chans.Nodup
  next : arr < n
  made : ∀ b ∈ chans, arr < b ∧ b < n

/-- The threads, the plain arrays as they will be when the call has returned, and what it will have
returned. -/
inductive Sim : List (List α) × Option (Outcome α) → Config (Thread α) → Prop
  | ready {chans : List ℕ} {n : ℕ} {ls : List (List α)} {last : Option (Outcome α)}
    (hchans : Names chans n) (hlen : chans.length = ls.length) :
    Sim (ls, last) ⟨.ready chans last :: servers chans ls, n⟩
  | makeNew {chans : List ℕ} {n : ℕ} {ls : List (List α)} {i : ℤ} {v : α} (hchans : Names chans n)
    (hlen : chans.length = ls.length) (hi : 0 ≤ i) :
    Sim (ls ++ [List.replicate i.toNat v], none) ⟨.makeNew chans i v :: servers chans ls, n⟩
  | makeCreate {chans : List ℕ} {n : ℕ} {ls : List (List α)} {i : ℤ} {v : α} {a : ℕ}
    (hchans : Names chans n) (hlen : chans.length = ls.length) (hi : 0 ≤ i) (ha : New chans n a) :
    Sim (ls ++ [List.replicate i.toNat v], none) ⟨.makeCreate chans i v a :: servers chans ls, n⟩
  | calling {chans : List ℕ} {n : ℕ} {ls : List (List α)} {k a : ℕ} {s S : Local α} {l : List α}
    {out : Outcome α} (hchans : Names chans n) (hlen : chans.length = ls.length)
    (hk : chans[k]? = some a) (hcall : Pending chans n s S l out) :
    Sim (ls.set k l, some out) ⟨.calling chans a s :: (servers chans ls).set k (.server a S), n⟩

/-- The channel `n` is made. -/
theorem Names.succ (h : Names chans n) : Names chans (n + 1) :=
  ⟨h.nodup, h.next.trans (Nat.lt_succ_self n), fun b hb =>
    ⟨(h.made b hb).1, (h.made b hb).2.trans (Nat.lt_succ_self n)⟩⟩

theorem Names.new (h : Names chans n) : New chans (n + 1) n :=
  ⟨h.next, Nat.lt_succ_self n, fun hn => lt_irrefl n (h.made n hn).2⟩

theorem Names.snoc (h : Names chans n) (ha : New chans n a) : Names (chans ++ [a]) n where
  nodup := by
    rw [List.nodup_append]
    refine ⟨h.nodup, List.nodup_singleton a, ?_⟩
    rintro b hb _ hmem rfl
    rw [List.mem_singleton] at hmem
    exact ha.2.2 (hmem ▸ hb)
  next := h.next
  made := by
    intro b hb
    rcases List.mem_append.1 hb with hb | hb
    · exact h.made b hb
    · rw [List.mem_singleton] at hb
      exact hb ▸ ⟨ha.1, ha.2.1⟩

theorem Sim.ending (hchans : Names chans n) (hlen : chans.length = ls.length)
    (hk : chans[k]? = some a) (h : Ending chans n s S l out) :
    Sim (ls.set k l, some out)
      ⟨.ofCall chans a s :: (servers chans ls).set k (.server a S), n⟩ := by
  rcases h with h | ⟨rfl, rfl⟩
  · have hof : Thread.ofCall chans a s = .calling chans a s := by cases h <;> rfl
    rw [hof]
    exact .calling hchans hlen hk h
  · rw [servers_set hk]
    exact .ready hchans (by rw [hlen, List.length_set])

/-! ## Steps of a call -/

/-- A server sends its answer on the channel of the client. -/
theorem act_reply {m : Msg α} (hch : New chans n ch) :
    (Thread.server a (.reply ch m l)).act = .send ch m (.server a (.serve l)) := by
  show Action.send (relocate a ch) m (Thread.server a (.serve l)) = _
  rw [relocate, if_neg hch.1.ne']

/-- The client receives the answer on its channel. -/
theorem act_receive {f : Msg α → Local α} (hch : New chans n ch) (hs : act s = .recv ch f) :
    (Thread.calling chans a s).act = .recv ch fun m => .ofCall chans a (f m) := by
  rw [Thread.act, actOn, hs]
  show Action.recv (relocate a ch) (fun m => Thread.ofCall chans a (f m)) = _
  rw [relocate, if_neg hch.1.ne']

/-- What the client and the server of a call do next, and that it leaves the call as it is. -/
theorem Pending.next (h : Pending chans n s S l out) (hchans : Names chans n) (a : ℕ) :
    (∃ f s' g, (Thread.calling chans a s).act = .fresh f ∧ (Thread.server a S).act = .recv a g ∧
      f n = .ofCall chans a s' ∧ Ending chans (n + 1) s' S l out) ∨
    (∃ m s' g S', (Thread.calling chans a s).act = .send a m (.ofCall chans a s') ∧
      (Thread.server a S).act = .recv a g ∧ g m = .server a S' ∧ Ending chans n s' S' l out) ∨
    ∃ ch m S' g s', ch ∉ chans ∧ (Thread.server a S).act = .send ch m (.server a S') ∧
      (Thread.calling chans a s).act = .recv ch g ∧ g m = .ofCall chans a s' ∧
        Ending chans n s' S' l out := by
  cases h with
  | sizeNew hop hcall =>
    exact .inl ⟨_, _, _, rfl, rfl, rfl, .inl (.sizeSend hop hcall hchans.new)⟩
  | sizeSend hop hcall hch =>
    exact .inr (.inl ⟨_, _, _, _, rfl, rfl, rfl, .inl (.sizeReceive hop hcall hch)⟩)
  | sizeReceive hop hcall hch =>
    exact .inr (.inr ⟨_, _, _, _, _, hch.2.2, act_reply hch, act_receive hch rfl, rfl,
      ending_withSize hop hcall⟩)
  | getNew hi hv => exact .inl ⟨_, _, _, rfl, rfl, rfl, .inl (.getSend hi hv hchans.new)⟩
  | getSend hi hv hch =>
    exact .inr (.inl ⟨_, _, _, _, rfl, rfl, congrArg (Thread.server a) (serve_get _ hi hv),
      .inl (.getReceive hch)⟩)
  | getReceive hch =>
    exact .inr (.inr ⟨_, _, _, _, _, hch.2.2, act_reply hch, act_receive hch rfl, rfl,
      .inr ⟨rfl, rfl⟩⟩)
  | @setSend i l v hi =>
    have hserve : serve l (.set i v) = .serve (l.set i.toNat v) := by
      rw [serve_set, if_pos hi]
    exact .inr (.inl ⟨_, .idle (some .unit), _, _, rfl, rfl, congrArg (Thread.server a) hserve,
      .inr ⟨rfl, rfl⟩⟩)
  | resizeSend hi =>
    exact .inr (.inl ⟨_, .idle (some .unit), _, _, rfl, rfl,
      congrArg (Thread.server a) (serve_resize hi _), .inr ⟨rfl, rfl⟩⟩)

/-- A thread is the client, the server that takes part in the call, or a server that waits for a
request on the channel of another array. -/
theorem thread_cases {i : ℕ} (hchans : Names chans n) (hk : chans[k]? = some a)
    (ht : (client :: (servers chans ls).set k (.server a S))[i]? = some t) :
    i = 0 ∧ t = client ∨ i = k + 1 ∧ t = .server a S ∨
      ∃ b g, b ∈ chans ∧ b ≠ a ∧ t.act = .recv b g := by
  cases i with
  | zero => exact .inl ⟨rfl, (Option.some.inj ht).symm⟩
  | succ j =>
    rw [List.getElem?_cons_succ, List.getElem?_set] at ht
    split_ifs at ht with hj hlt
    · exact .inr (.inl ⟨by omega, (Option.some.inj ht).symm⟩)
    · obtain ⟨b, l, hb, -, rfl⟩ := getElem?_servers ht
      refine .inr (.inr ⟨b, _, List.mem_of_getElem? hb, ?_, rfl⟩)
      rintro rfl
      have hlt := (List.getElem?_eq_some_iff.1 hk).1
      exact hj ((List.getElem?_inj hlt hchans.nodup).1 (hk.trans hb.symm))

theorem getElem?_server (client : Thread α) (S : Local α) (hlen : chans.length = ls.length)
    (hk : chans[k]? = some a) :
    (client :: (servers chans ls).set k (.server a S))[k + 1]? = some (.server a S) := by
  have hlt : k < (servers chans ls).length := by
    rw [servers, List.length_zipWith, ← hlen, Nat.min_self]
    exact (List.getElem?_eq_some_iff.1 hk).1
  rw [List.getElem?_cons_succ, List.getElem?_set_self hlt]

/-- All threads but the client wait for a request. -/
theorem others_wait (hchans : Names chans n) (hk : chans[k]? = some a)
    (hserve : ∃ g, (Thread.server a S).act = .recv a g) :
    Rendezvous.OthersWait Thread.act
      ⟨client :: (servers chans ls).set k (.server a S), n⟩ 0 := by
  intro j t hj ht
  rcases thread_cases hchans hk ht with ⟨rfl, -⟩ | ⟨-, rfl⟩ | ⟨b, g, -, -, hrecv⟩
  · exact absurd rfl hj
  · exact ⟨a, hserve⟩
  · exact ⟨b, g, hrecv⟩

theorem Sim.step_calling (hchans : Names chans n) (hlen : chans.length = ls.length)
    (hk : chans[k]? = some a) (h : Pending chans n s S l out)
    (hs : Rendezvous.step Thread.act
      ⟨.calling chans a s :: (servers chans ls).set k (.server a S), n⟩ label = some c') :
    (∀ i x, label ≠ .input i x) ∧ Sim (ls.set k l, some out) c' := by
  have hserver := getElem?_server (.calling chans a s) S hlen hk
  rcases h.next hchans a with ⟨f, s', g, hclient, hserve, hf, hend⟩ |
    ⟨m, s', g, S', hclient, hserve, hg, hend⟩ | ⟨ch, m, S', g, s', hch, hserve, hclient, hg, hend⟩
  · -- the client makes a channel, and all servers wait
    obtain ⟨rfl, rfl⟩ := (others_wait hchans hk ⟨_, hserve⟩).fresh rfl hclient hs
    refine ⟨by rintro _ _ ⟨⟩, ?_⟩
    show Sim _ ⟨f n :: (servers chans ls).set k (.server a S), n + 1⟩
    rw [hf]
    exact .ending hchans.succ hlen hk hend
  · -- the client sends a request, which only the server of the array can receive
    obtain ⟨j, t, g', rfl, ⟨ht, hrecv⟩, rfl⟩ :=
      (others_wait hchans hk ⟨_, hserve⟩).send rfl hclient hs
    refine ⟨by rintro _ _ ⟨⟩, ?_⟩
    rcases thread_cases hchans hk ht with ⟨-, rfl⟩ | ⟨rfl, rfl⟩ | ⟨b, g', -, hne, hrecv'⟩
    · rw [hclient] at hrecv
      cases hrecv
    · rw [hserve] at hrecv
      cases hrecv
      show Sim _ ⟨.ofCall chans a s' :: ((servers chans ls).set k (.server a S)).set k (g m), n⟩
      rw [hg, List.set_set]
      exact .ending hchans hlen hk hend
    · rw [hrecv'] at hrecv
      cases hrecv
      exact absurd rfl hne
  · -- the server answers on a channel that only the client receives on
    have hwait : Rendezvous.OthersWait Thread.act
        ⟨.calling chans a s :: (servers chans ls).set k (.server a S), n⟩ (k + 1) := by
      intro j t hj ht
      rcases thread_cases hchans hk ht with ⟨-, rfl⟩ | ⟨rfl, -⟩ | ⟨b, g', -, -, hrecv⟩
      · exact ⟨_, _, hclient⟩
      · exact absurd rfl hj
      · exact ⟨_, _, hrecv⟩
    obtain ⟨j, t, g', rfl, ⟨ht, hrecv⟩, rfl⟩ := hwait.send hserver hserve hs
    refine ⟨by rintro _ _ ⟨⟩, ?_⟩
    rcases thread_cases hchans hk ht with ⟨rfl, rfl⟩ | ⟨-, rfl⟩ | ⟨b, g', hb, -, hrecv'⟩
    · rw [hclient] at hrecv
      cases hrecv
      show Sim _ ⟨g m :: ((servers chans ls).set k (.server a S)).set k (.server a S'), n⟩
      rw [hg, List.set_set]
      exact .ending hchans hlen hk hend
    · rw [hserve] at hrecv
      cases hrecv
    · rw [hrecv'] at hrecv
      cases hrecv
      exact absurd hb hch

/-! ## Steps -/

/-- Between two calls all servers wait for a request. -/
theorem others_wait_servers :
    Rendezvous.OthersWait Thread.act ⟨client :: servers chans ls, n⟩ 0 := by
  intro j t hj ht
  cases j with
  | zero => exact absurd rfl hj
  | succ j =>
    obtain ⟨b, l, -, -, rfl⟩ := getElem?_servers ht
    exact ⟨b, _, rfl⟩

/-- An array that is made has its length and its values. -/
theorem create_eq {i : ℤ} (hi : 0 ≤ i) (v : α) :
    (Thread.makeCreate chans i v a).act =
      .fork (.server a (.serve (List.replicate i.toNat v))) (.ready (chans ++ [a]) none) := by
  rw [Thread.act, Ocaml.init_const hi]

/-- A call begins. -/
theorem Sim.step_ready {last : Option (Outcome α)} (hchans : Names chans n)
    (hlen : chans.length = ls.length)
    (hs : Rendezvous.step Thread.act ⟨.ready chans last :: servers chans ls, n⟩ label = some c') :
    ∃ call, label = .input 0 call ∧ (call.Plain → Sim (plainCall ls call) c') := by
  obtain ⟨call, rfl, rfl⟩ := others_wait_servers.input rfl rfl hs
  refine ⟨call, rfl, fun hcall => ?_⟩
  cases call with
  | make i v => exact .makeNew hchans hlen hcall
  | on k op =>
    simp only [List.set_cons_zero, plainCall]
    cases hk : chans[k]? with
    | none =>
      have hge : ls.length ≤ k := by
        rw [← hlen]
        exact List.getElem?_eq_none_iff.1 hk
      rw [List.getElem?_eq_none hge]
      exact .ready hchans hlen
    | some a =>
      have hlt : k < ls.length := by
        rw [← hlen]
        exact (List.getElem?_eq_some_iff.1 hk).1
      have hservers : servers chans ls =
          (servers chans ls).set k (.server a (.serve ls[k])) := by
        rw [servers_set hk, List.set_getElem_self]
      rw [List.getElem?_eq_getElem hlt, hservers]
      exact .calling hchans hlen hk (pending_call hcall)

/-- The step that makes the server of a new array. -/
theorem Sim.step_create {i : ℤ} {v : α} (hchans : Names chans n) (hlen : chans.length = ls.length)
    (hi : 0 ≤ i) (ha : New chans n a)
    (hs : Rendezvous.step Thread.act ⟨.makeCreate chans i v a :: servers chans ls, n⟩ label =
      some c') :
    (∀ i x, label ≠ .input i x) ∧ Sim (ls ++ [List.replicate i.toNat v], none) c' := by
  obtain ⟨rfl, rfl⟩ := others_wait_servers.fork rfl (create_eq hi v) hs
  refine ⟨by rintro _ _ ⟨⟩, ?_⟩
  have hservers : servers (chans ++ [a]) (ls ++ [List.replicate i.toNat v]) =
      servers chans ls ++ [.server a (.serve (List.replicate i.toNat v))] :=
    List.zipWith_append hlen
  show Sim _ ⟨_ :: (servers chans ls ++ [_]), n⟩
  rw [← hservers]
  exact .ready (hchans.snoc ha) (by simp [hlen])

/-- A step is a new call, or it leaves what the last call will leave and return as it is. -/
theorem Sim.step {s : List (List α) × Option (Outcome α)} (h : Sim s c)
    (hs : Rendezvous.step Thread.act c label = some c') :
    (∃ call, label = .input 0 call ∧ (call.Plain → Sim (plainCall s.1 call) c')) ∨
      (∀ i x, label ≠ .input i x) ∧ Sim s c' := by
  cases h with
  | ready hchans hlen => exact .inl (Sim.step_ready hchans hlen hs)
  | makeNew hchans hlen hi =>
    obtain ⟨rfl, rfl⟩ := others_wait_servers.fresh rfl rfl hs
    exact .inr ⟨by rintro _ _ ⟨⟩, .makeCreate hchans.succ hlen hi hchans.new⟩
  | makeCreate hchans hlen hi ha => exact .inr (Sim.step_create hchans hlen hi ha hs)
  | calling hchans hlen hk hcall => exact .inr (Sim.step_calling hchans hlen hk hcall hs)

/-! ## Progress -/

/-- In the middle of a call the threads can take a step. -/
theorem Sim.progress {s : List (List α) × Option (Outcome α)} (h : Sim s c)
    (hbusy : ∀ arrays last, c.threads[0]? ≠ some (.ready arrays last)) :
    ∃ t c', (∀ i call, t ≠ .input i call) ∧ Rendezvous.step Thread.act c t = some c' := by
  cases h with
  | ready hchans hlen => exact absurd rfl (hbusy _ _)
  | makeNew hchans hlen hi =>
    exact ⟨.act 0, _, by rintro _ _ ⟨⟩, Rendezvous.step_fresh rfl rfl⟩
  | makeCreate hchans hlen hi ha =>
    exact ⟨.act 0, _, by rintro _ _ ⟨⟩, Rendezvous.step_fork rfl (create_eq hi _)⟩
  | @calling chans n ls k a s S l out hchans hlen hk hcall =>
    have hserver := getElem?_server (.calling chans a s) S hlen hk
    rcases hcall.next hchans a with ⟨f, s', g, hclient, -, -, -⟩ |
      ⟨m, s', g, S', hclient, hserve, -, -⟩ | ⟨ch, m, S', g, s', -, hserve, hclient, -, -⟩
    · exact ⟨.act 0, _, by rintro _ _ ⟨⟩, Rendezvous.step_fresh rfl hclient⟩
    · exact ⟨.comm 0 (k + 1), _, by rintro _ _ ⟨⟩,
        Rendezvous.step_send rfl hclient hserver hserve⟩
    · exact ⟨.comm (k + 1) 0, _, by rintro _ _ ⟨⟩,
        Rendezvous.step_send hserver hserve rfl hclient⟩

/-- A bound on the steps that a thread has left, if there are no new calls. -/
def Thread.work : Thread α → ℕ
  | .server _ s => s.work
  | .calling _ _ s => s.work
  | .makeNew _ _ _ => 2
  | .makeCreate _ _ _ _ => 1
  | _ => 0

/-- A client has no more work left than the call. -/
theorem work_ofCall (arrays : List ℕ) (a : ℕ) (s : Local α) :
    (Thread.ofCall arrays a s).work ≤ s.work := by
  cases s <;> exact le_rfl

section ActOn

variable {thread : Local α → Thread α} (hthread : ∀ s, (thread s).work ≤ s.work)
include hthread

/-- Sending uses more work than the message brings. -/
theorem work_actOn_send {m : Msg α} (h : actOn a thread s = .send ch m t) :
    t.work + m.work < s.work := by
  unfold actOn at h
  split at h <;> cases h
  rename_i s' hs
  have hlt := work_send hs
  have hle := hthread s'
  omega

/-- Receiving adds no more work than the message brings. -/
theorem work_actOn_recv {g : Msg α → Thread α} (h : actOn a thread s = .recv ch g) (m : Msg α) :
    (g m).work ≤ s.work + m.work := by
  unfold actOn at h
  split at h <;> cases h
  rename_i k hs
  exact (hthread (k m)).trans (work_recv hs m)

theorem work_actOn_fresh {f : ℕ → Thread α} (h : actOn a thread s = .fresh f) (ch : ℕ) :
    (f ch).work < s.work := by
  unfold actOn at h
  split at h <;> cases h
  rename_i k hs
  exact (hthread (k ch)).trans_lt (decreases_work.fresh s k ch hs)

omit hthread in
theorem actOn_ne_tau : actOn a thread s ≠ .tau t := by
  unfold actOn
  split <;> rintro ⟨⟩
  rename_i s' hs
  exact act_ne_tau hs

omit hthread in
theorem actOn_ne_fork : actOn a thread s ≠ .fork client t := by
  unfold actOn
  split <;> rintro ⟨⟩
  rename_i child s' hs
  exact act_ne_fork hs

end ActOn

/-- Every step of the threads decreases the work that is left. -/
theorem decreases_thread_work : Rendezvous.Decreases (Thread.act (α := α)) Thread.work where
  tau := by
    intro t t' h
    cases t with
    | server a s => exact absurd h actOn_ne_tau
    | calling arrays a s => exact absurd h actOn_ne_tau
    | makeCreate arrays i v a =>
      rw [Thread.act] at h
      split at h <;> cases h
      exact Nat.zero_lt_one
    | _ => cases h
  fresh := by
    intro t f ch h
    cases t with
    | server a s => exact work_actOn_fresh (fun _ => le_rfl) h ch
    | calling arrays a s => exact work_actOn_fresh (work_ofCall arrays a) h ch
    | makeNew arrays i v =>
      cases h
      exact Nat.one_lt_two
    | makeCreate arrays i v a =>
      rw [Thread.act] at h
      split at h <;> cases h
    | _ => cases h
  fork := by
    intro t child t' h
    cases t with
    | server a s => exact absurd h actOn_ne_fork
    | calling arrays a s => exact absurd h actOn_ne_fork
    | makeCreate arrays i v a =>
      rw [Thread.act] at h
      split at h <;> cases h
      exact Nat.zero_lt_one
    | _ => cases h
  comm := by
    intro t r ch m t' g hsend hrecv
    have hsent : t'.work + m.work < t.work := by
      cases t with
      | server a s => exact work_actOn_send (fun _ => le_rfl) hsend
      | calling arrays a s => exact work_actOn_send (work_ofCall arrays a) hsend
      | makeCreate arrays i v a =>
        rw [Thread.act] at hsend
        split at hsend <;> cases hsend
      | _ => cases hsend
    have hreceived : (g m).work ≤ r.work + m.work := by
      cases r with
      | server a s => exact work_actOn_recv (fun _ => le_rfl) hrecv m
      | calling arrays a s => exact work_actOn_recv (work_ofCall arrays a) hrecv m
      | makeCreate arrays i v a =>
        rw [Thread.act] at hrecv
        split at hrecv <;> cases hrecv
      | _ => cases hrecv
    omega

/-- In these states the calls have returned what they return on plain arrays. -/
theorem Sim.answersAs {s : List (List α) × Option (Outcome α)} (h : Sim s c) : AnswersAs s c where
  answer := by
    intro arrays last hready
    cases h with
    | ready hchans hlen =>
      cases Option.some.inj hready
      exact ⟨rfl, rfl, hlen⟩
    | makeNew => cases Option.some.inj hready
    | makeCreate => cases Option.some.inj hready
    | calling => cases Option.some.inj hready
  progress := h.progress
  finishes := by
    refine ⟨(c.threads.map Thread.work).sum, fun steps c' hrun hinternal => ?_⟩
    have hlen := hrun.length_add_le (C := fun _ t => ∀ i call, t ≠ .input i call)
      (fun c => (c.threads.map Thread.work).sum)
      (fun c t c' ht hs => decreases_thread_work.sum_lt ht hs) hinternal
    exact (Nat.le_add_right _ _).trans hlen

/-! ## Runs -/

theorem calls_snoc_input {steps : List (Config (Thread α) × Label (Call α))} {i : ℕ}
    {call : Call α} : calls (steps ++ [(c, .input i call)]) = calls steps ++ [call] := by
  simp [calls]

theorem calls_snoc {steps : List (Config (Thread α) × Label (Call α))}
    (h : ∀ i call, label ≠ .input i call) : calls (steps ++ [(c, label)]) = calls steps := by
  cases label with
  | input i call => exact absurd rfl (h i call)
  | act i => simp [calls]
  | comm i j => simp [calls]

/-- In every run the calls return what they return on plain arrays. -/
theorem session_answersAs {steps : List (Config (Thread α) × Label (Call α))}
    (h : Run (Rendezvous.step Thread.act) newSession steps c)
    (hplain : ∀ x ∈ steps, ∀ i call, x.2 = .input i call → call.Plain) :
    AnswersAs (plainRun (calls steps)) c := by
  suffices hsim : Sim (plainRun (calls steps)) c from hsim.answersAs
  induction h with
  | init =>
    have hchans : Names [] (arr + 1) :=
      ⟨List.nodup_nil, Nat.lt_succ_self arr, by rintro _ ⟨⟩⟩
    exact .ready hchans rfl
  | @snoc steps c c' label hrun hs ih =>
    obtain ⟨hplain, hlast⟩ := Run.forall_mem_snoc.1 hplain
    rcases (ih hplain).step hs with ⟨call, rfl, hsim⟩ | ⟨hinternal, hsim⟩
    · rw [calls_snoc_input, plainRun, List.foldl_concat]
      exact hsim (hlast 0 call rfl)
    · rw [calls_snoc hinternal]
      exact hsim

/-- An array of length one is asked for the element behind its end. -/
theorem session_answersAs_get :
    ∃ steps c, Run (Rendezvous.step Thread.act) newSession steps c ∧
      c.threads = [.ready [1] (some .outOfBounds), .server 1 (.serve [5])] ∧
      AnswersAs (plainRun (calls steps)) c := by
  have hrun : ∃ steps c, Run (Rendezvous.step Thread.act) newSession steps c ∧
      steps.map Prod.snd = [.input 0 (.make 1 5), .act 0, .act 0, .input 0 (.on 0 (.get 1)), .act 0,
        .comm 0 1, .comm 1 0] ∧
      c.threads = [.ready [1] (some .outOfBounds), .server 1 (.serve [5])] :=
    ⟨_, _, .snoc (.snoc (.snoc (.snoc (.snoc (.snoc (.snoc .init rfl) rfl) rfl) rfl) rfl) rfl) rfl,
      rfl, rfl⟩
  obtain ⟨steps, c, hrun, hlabels, hthreads⟩ := hrun
  refine ⟨steps, c, hrun, hthreads, session_answersAs hrun fun x hx i call hcall => ?_⟩
  have hmem := List.mem_map_of_mem (f := Prod.snd) hx
  rw [hlabels, hcall] at hmem
  have hcalls : i = 0 ∧ call = .make 1 5 ∨ i = 0 ∧ call = .on 0 (.get 1) := by
    simpa using hmem
  rcases hcalls with ⟨-, rfl⟩ | ⟨-, rfl⟩
  · exact Int.zero_le_ofNat 1
  · exact Int.zero_le_ofNat 1

end Sem3.MsgArray
