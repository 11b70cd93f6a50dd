import Sem3.Poll.Server
import Mathlib.Algebra.Ring.Int.Defs

/-!
# What happens in a pass of the poll server

The clients that are accepted, heard of and closed in one pass, in this order, as the branches of
`main` do it. A pass here is also the last one, in which the server has timed out: `poll` has reported
nothing then, and the loop is left before anything else is done.
-/

namespace Sem3.Poll

/-- Why a client is closed: `POLLHUP`, the end of its data, or its timeout. -/
inductive Cause where
  | hangUp
  | eof
  | timeout
deriving DecidableEq, Repr

/-- What is noted of a client: it is accepted, its data are answered, or it is closed. -/
inductive Happening where
  | accepted (sd : ℤ)
  | heard (sd : ℤ)
  | closed (sd : ℤ) (cause : Cause)
deriving DecidableEq, Repr

section

variable (ls : Listeners) (rd : Round)

/-- What `handle` does for the entry `i`. -/
def happenings (revents : ℕ → Revents) (s : Server) (i : ℕ) : List Happening :=
  let fd := s.sds.getD i (-1)
  if fd < 0 ∨ revents i = .none then []
  else if (revents i).pollhup then [.closed fd .hangUp]
  else if (revents i).pollin then
    if fd = ls.echoSock ∨ fd = ls.hdSock then
      [.accepted (rd.accept i (ls.echoSock :: ls.hdSock :: s.opened))]
    else if rd.recv i = 0 then [.closed fd .eof]
    else [.heard fd]
  else []

/-- What `sweep` does for the connection `c`. -/
def expiry (_ : Server) (c : Connection) : List Happening :=
  if c.timeout ≤ 0 then [.closed c.sd .timeout] else []

/-- The pass in which the server times out. -/
def Expired (s : Server) : Prop := rd.pollRet s.sds = 0 ∧ (s.polled rd).serverTimeout ≤ 0

instance (s : Server) : Decidable (Expired rd s) := inferInstanceAs (Decidable (_ ∧ _))

/-- The state at the end of a pass, and what has happened in it. -/
def pass (s : Server) : Option (Server × List Happening) :=
  if rd.pollRet s.sds < 0 then none
  else if Expired rd s then some (s.polled rd, [])
  else do
    let m ← (List.range (maxConn + serviceCount)).foldlM
      (Run.logged (handle ls rd (rd.reported s.sds)) (happenings ls rd (rd.reported s.sds)))
      (s.polled rd, [])
    m.1.conns.foldlM (Run.logged (sweep rd) expiry) m

end

/-! ## Idle clients -/

/-- The clients that were closed. -/
def closings (log : List Happening) : List ℤ :=
  log.filterMap fun e =>
    match e with
    | .closed sd _ => some sd
    | _ => none

/-- The client was accepted or has sent data. -/
def Active (sd : ℤ) (log : List Happening) : Prop := .accepted sd ∈ log ∨ .heard sd ∈ log

instance (sd : ℤ) (log : List Happening) : Decidable (Active sd log) :=
  inferInstanceAs (Decidable (_ ∨ _))

/-- What happens in the pass of a run; nothing if a call of the system fails. -/
def logOf (ls : Listeners) (x : Server × Round) : List Happening :=
  ((pass ls x.2 x.1).map Prod.snd).getD []

/-- The time that `poll` took since the pass in which the client was active last. -/
def idle (ls : Listeners) (sd : ℤ) (steps : List (Server × Round)) : ℤ :=
  ((steps.reverse.takeWhile fun x => ¬ Active sd (logOf ls x)).map fun x => x.2.elapsed).sum

/-- What the timeout of the client should be. -/
def remaining (ls : Listeners) (sd : ℤ) (steps : List (Server × Round)) : ℤ :=
  connTimeout - idle ls sd steps

/-- At the end of the pass from `s`, the last one of `steps`, the connections that are left are not
idle for too long. Clients are closed for one of the three reasons, all those that are idle for too
long are closed, and each only once. -/
structure OnTime (ls : Listeners) (s s' : Server) (steps : List (Server × Round))
    (log : List Happening) : Prop where
  timeout : ∀ c ∈ s'.conns, c.timeout = remaining ls c.sd steps ∧ 0 < c.timeout
  cause : ∀ sd cause, .closed sd cause ∈ log →
    cause = .hangUp ∨ cause = .eof ∨ remaining ls sd steps ≤ 0
  closed : ∀ c ∈ s.conns, remaining ls c.sd steps ≤ 0 → c.sd ∈ closings log
  once : (closings log).Nodup

end Sem3.Poll
