import Sem3.Poll.Server
import Sem3.Util.Slots

/-!
# What the tables of the server are for

The entries of `sds` after the two listening sockets are the clients that `poll` watches, the list
`conns` is the clients that the server knows, and both should be the clients whose connection is
open.
-/

namespace Sem3.Poll

/-- The entries of `sds` for the clients. -/
def Server.slots (s : Server) : List ℤ := s.sds.drop serviceCount

/-- The descriptors of clients that `poll` watches. -/
def Server.watched (s : Server) : List ℤ := Slots.held (0 ≤ ·) s.slots

/-- The descriptors of the connections in the list. -/
def Server.clients (s : Server) : List ℤ := s.conns.map Connection.sd

/-- The array and the list have the same clients, each once, and every open connection is one of
them. -/
structure Synced (s : Server) : Prop where
  same : ∀ fd, fd ∈ s.watched ↔ fd ∈ s.clients
  watched_nodup : s.watched.Nodup
  clients_nodup : s.clients.Nodup
  opened : ∀ fd ∈ s.opened, fd ∈ s.watched

/-- The number of entries that are free for a client. -/
def Server.free (s : Server) : ℕ := s.slots.count (-1)

/-- The number of listening sockets that report a client. -/
def Round.arrivals (rd : Round) : ℕ :=
  (List.range serviceCount).countP fun i => (rd.revents i).pollin

/-- There is a free entry for every client that is reported. -/
def Room (s : Server) (rd : Round) : Prop := rd.arrivals ≤ s.free

/-- `poll` returns less than 5000 ms after the timeout, and the listening sockets only report
clients. -/
structure Prompt (s : Server) (rd : Round) : Prop where
  elapsed_nonneg : 0 ≤ rd.elapsed
  elapsed_lt : rd.elapsed < nextTimeout s.conns s.serverTimeout + 5000
  listeners : ∀ i < serviceCount, rd.revents i = .none ∨ rd.revents i = ⟨true, false, false⟩

end Sem3.Poll
