import Sem3.Util.Run
import Mathlib.Data.Int.Notation

/-!
# The poll server (`server.c`)

One pass of the loop of `main`: `poll`, the time that it took, the entries of `sds` that report
something, and the connections that have timed out. What the system answers in one pass is a
`Round`. `int` is unbounded, and `malloc` is taken to succeed. The text that is printed and what is
sent to the clients are left out; `exit` and the end of the loop are `none`.
-/

namespace Sem3.Poll

/-- `CONN_TIMEOUT`: the milliseconds after which a silent client is closed. -/
def connTimeout : ℤ := 5000

/-- `SERVER_TIMEOUT`: the milliseconds after which the server ends. -/
def serverTimeoutMax : ℤ := 10000

/-- `MAX_CONN`: the number of entries for clients. -/
def maxConn : ℕ := 10

/-- The number of listening sockets. -/
def serviceCount : ℕ := 2

/-- The two services. -/
inductive Service where
  | echo
  | hexdump
deriving DecidableEq, Repr

/-- A client in the list `conns`: its descriptor, the time that it has left, and what it asked
for. -/
structure Connection where
  sd : ℤ
  timeout : ℤ
  service : Service
deriving DecidableEq, Repr

/-- The two listening sockets. -/
structure Listeners where
  echoSock : ℤ
  hdSock : ℤ
  echo_nonneg : 0 ≤ echoSock
  hd_nonneg : 0 ≤ hdSock

/-- The variables of `main`; of `sds`, the field `fd` of every entry. `opened` is what the system
knows: the descriptors that `accept` returned and that were not closed since. -/
structure Server where
  sds : List ℤ
  conns : List Connection
  serverTimeout : ℤ
  opened : List ℤ
deriving DecidableEq, Repr

/-! ## The system -/

/-- The field `revents` of an entry: the flags that `main` tests, and whether there are others. -/
structure Revents where
  pollin : Bool
  pollhup : Bool
  other : Bool
deriving DecidableEq, Repr

/-- Nothing is reported. -/
def Revents.none : Revents := ⟨false, false, false⟩

/-- What the system answers in one pass. `accept` and `recv` are numbered by the entry that they are
called for, and `accept` is told which descriptors are open. -/
structure Round where
  pollFails : Bool
  elapsed : ℤ
  revents : ℕ → Revents
  accept : ℕ → List ℤ → ℤ
  recv : ℕ → ℤ
  shutdown : ℤ → ℤ
  close : ℤ → ℤ
  accept_fresh : ∀ i opened, accept i opened ∉ opened

/-- `poll` fills in `revents`; for a negative descriptor it reports nothing. -/
def Round.reported (rd : Round) (sds : List ℤ) (i : ℕ) : Revents :=
  if sds.getD i (-1) < 0 then .none else rd.revents i

/-- `poll` returns the number of entries that report something. -/
def Round.pollRet (rd : Round) (sds : List ℤ) : ℤ :=
  if rd.pollFails then -1
  else (List.range (maxConn + serviceCount)).countP fun i => rd.reported sds i ≠ .none

/-! ## The timeouts -/

/-- The least of the timeouts of the clients and of the server. -/
def nextTimeout (conns : List Connection) (serverTimeout : ℤ) : ℤ :=
  conns.foldl (fun minTimeout c => if c.timeout < minTimeout then c.timeout else minTimeout)
    serverTimeout

/-- The time that has passed is taken off every timeout. -/
def updateTimeouts (conns : List Connection) (elapsed : ℤ) : List Connection :=
  conns.map fun c => { c with timeout := c.timeout - elapsed }

/-! ## The two tables -/

/-- The descriptor goes into the first free entry. When there is none, nothing is stored. -/
def addSd (sd : ℤ) : List ℤ → List ℤ
  | [] => []
  | fd :: rest => if fd = -1 then sd :: rest else fd :: addSd sd rest

/-- The first entry with the descriptor becomes free. -/
def removeSd (sd : ℤ) : List ℤ → List ℤ
  | [] => []
  | fd :: rest => if fd = sd then -1 :: rest else fd :: removeSd sd rest

/-- `list_find` with `cmpSd`. -/
def findSd (sd : ℤ) (conns : List Connection) : Option Connection :=
  conns.find? fun c => c.sd = sd

/-- `c->timeout = CONN_TIMEOUT;` for the connection that `list_find` finds. -/
def resetTimeout (sd : ℤ) : List Connection → List Connection
  | [] => []
  | c :: rest =>
    if c.sd = sd then { c with timeout := connTimeout } :: rest else c :: resetTimeout sd rest

/-- The state after a client was accepted. -/
def Server.accepted (s : Server) (clientSd : ℤ) (service : Service) : Server where
  sds := addSd clientSd s.sds
  conns := s.conns ++ [{ sd := clientSd, timeout := connTimeout, service := service }]
  serverTimeout := serverTimeoutMax
  opened := clientSd :: s.opened

/-- The state after a client was closed. -/
def Server.closed (s : Server) (sd : ℤ) : Server :=
  { s with
    sds := removeSd sd s.sds
    conns := s.conns.eraseP fun c => c.sd = sd
    opened := s.opened.erase sd }

/-- The state after a client has sent something. -/
def Server.received (s : Server) (sd : ℤ) : Server :=
  { s with
    conns := resetTimeout sd s.conns
    serverTimeout := serverTimeoutMax }

/-- A client is closed and leaves the array and the list. `none` if a call fails or the client is
not in the list: the program ends then. -/
def closeClient (rd : Round) (s : Server) (sd : ℤ) : Option Server :=
  if rd.shutdown sd ≠ 0 then none
  else if rd.close sd ≠ 0 then none
  else if findSd sd s.conns = none then none
  else some (s.closed sd)

/-! ## One pass of the loop -/

section

variable (ls : Listeners) (rd : Round)

/-- The branch of a listening socket. -/
def acceptClient (i : ℕ) (service : Service) (s : Server) : Option Server :=
  let clientSd := rd.accept i (ls.echoSock :: ls.hdSock :: s.opened)
  if clientSd < 0 then none else some (s.accepted clientSd service)

/-- The branch of a client. -/
def receive (i : ℕ) (fd : ℤ) (s : Server) : Option Server :=
  if rd.recv i = 0 then closeClient rd s fd
  else if rd.recv i < 0 then none
  else if findSd fd s.conns = none then none
  else some (s.received fd)

/-- The loop over `sds`, for the entry `i`. -/
def handle (revents : ℕ → Revents) (s : Server) (i : ℕ) : Option Server :=
  let fd := s.sds.getD i (-1)
  if fd < 0 ∨ revents i = .none then some s
  else if (revents i).pollhup then closeClient rd s fd
  else if (revents i).pollin then
    if fd = ls.echoSock then acceptClient ls rd i .echo s
    else if fd = ls.hdSock then acceptClient ls rd i .hexdump s
    else receive rd i fd s
  else some s

/-- The loop over `conns`, for the connection `c`. -/
def sweep (s : Server) (c : Connection) : Option Server :=
  if c.timeout ≤ 0 then closeClient rd s c.sd else some s

/-- The state after `poll` has returned. -/
def Server.polled (s : Server) : Server :=
  { s with
    conns := updateTimeouts s.conns rd.elapsed
    serverTimeout := s.serverTimeout - rd.elapsed }

end

/-- One pass of the loop of `main`. `none` if the loop is left or the program ends. -/
def step (ls : Listeners) (s : Server) (rd : Round) : Option Server :=
  if rd.pollRet s.sds < 0 then none
  else if rd.pollRet s.sds = 0 ∧ (s.polled rd).serverTimeout ≤ 0 then none
  else do
    let s' ← (List.range (maxConn + serviceCount)).foldlM (handle ls rd (rd.reported s.sds))
      (s.polled rd)
    s'.conns.foldlM (sweep rd) s'

/-- The variables of `main` before the loop. -/
def Server.init (ls : Listeners) : Server where
  sds := ls.echoSock :: ls.hdSock :: List.replicate maxConn (-1)
  conns := []
  serverTimeout := serverTimeoutMax
  opened := []

end Sem3.Poll
