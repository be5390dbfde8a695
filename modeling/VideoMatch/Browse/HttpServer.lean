/-
VideoMatch.Browse.HttpServer — many connections, the I/O thread and the
pool.

The I/O thread runs one completion handler after the other: a connection is
accepted, a read or a write has come to its end. While it is in
`push_to_threadpool` it does nothing else. A worker of the pool runs
`process_request` on the connection that it took out of its queue. A call of
the handler is one step.

A pointer to a connection is its position in the list of those that were
accepted. Where a connection is, the reads since its last reset and the
calls of the handler for each request are bookkeeping; the last two no step
depends on, and a step of the wrong kind cannot come from the socket.
-/
import VideoMatch.Browse.IsolationTheorems

namespace VideoMatch.Browse

open VideoMatch.Cxx VideoMatch.Machine

open HttpConnection (Call Decision Reading RequestHandler)

/-- What a connection waits for: the end of a read, a worker, the end of a
write, or nothing any more. -/
inductive Place where
  | reading | pooled | writing | closed
  deriving DecidableEq, Repr

/-- Where a call of `process_request` leaves the connection. -/
def HttpConnection.Decision.place : Decision → Place
  | .pushToThreadpool => .pooled
  | .respond (some _) | .badHandler (some _) => .writing
  | .respond none | .badHandler none => .closed

/-- An accepted connection. -/
structure Peer where
  conn : HttpConnection
  place : Place
  reads : List Bytes
  log : List (List Call)

/-- The handler is called for a new request. -/
def Peer.open (cl : Peer) (call : Call) : Peer := { cl with log := cl.log ++ [[call]] }

/-- It is called once more for the last request. -/
def Peer.again (cl : Peer) (call : Call) : Peer :=
  { cl with log := cl.log.dropLast ++ [(cl.log.getLast?.getD []) ++ [call]] }

structure HttpServer (G : Type*) where
  pool : Pool Nat
  conns : List Peer
  g : G

inductive ServerEvent where
  /-- `handle_accept`, with what the constructor leaves as it is -/
  | accept (state : State) (type : RequestType) (httpRet : Int) (postsize : Nat)
  /-- `handle_read`; a read that failed brings no bytes -/
  | read (t : Nat) (buffer : Option Bytes)
  /-- `handle_write` -/
  | written (t : Nat)
  /-- worker `i` returns from `process_request` -/
  | finish (i : Nat)
  /-- any other step of a thread -/
  | thread (e : PoolEvent Nat)

/-- The steps of threads that do not touch a connection. -/
def PoolEvent.own {α : Type*} : PoolEvent α → Bool
  | .call _ | .worker _ .finish => false
  | _ => true

namespace HttpServer

variable {G : Type*} (reqHandler : RequestHandler G)

/-- The I/O thread calls `process_request` for a request that has been
parsed. -/
def process (s : HttpServer G) (t : Nat) (cl : Peer) : Option (HttpServer G) :=
  let r := cl.conn.processRequest reqHandler s.g
  let cl' := { cl with conn := r.2.1, place := r.1.place }.open
    ⟨cl.conn.view, cl.conn.headers, r.1⟩
  let s' := { s with conns := s.conns.set t cl', g := r.2.2 }
  if r.1 = .pushToThreadpool then (s.pool.step (.call t)).map fun pool => { s' with pool := pool }
  else some s'

/-- One step; `none` if it cannot happen. -/
def step (s : HttpServer G) : ServerEvent → Option (HttpServer G)
  | .accept state type httpRet postsize =>
      match s.pool.io with
      | .idle => some { s with
          conns := s.conns ++ [⟨(HttpConnection.new state type httpRet postsize).start, .reading,
            [], []⟩] }
      | _ => none
  | .read t buffer =>
      match s.pool.io, s.conns[t]? with
      | .idle, some cl =>
          if cl.place = .reading then
            let cl := { cl with reads := cl.reads ++ buffer.toList }
            match cl.conn.handleRead buffer with
            | .more c => some { s with conns := s.conns.set t { cl with conn := c } }
            | .parsed c => s.process reqHandler t { cl with conn := c }
            | .closed => some { s with conns := s.conns.set t { cl with place := .closed } }
          else none
      | _, _ => none
  | .written t =>
      match s.pool.io, s.conns[t]? with
      | .idle, some cl =>
          if cl.place = .writing then
            some { s with
              conns := s.conns.set t
                { cl with conn := cl.conn.handleWrite, place := .reading, reads := [] } }
          else none
      | _, _ => none
  | .finish i =>
      match (s.pool.threads i).pc with
      | .process x =>
          s.conns[x.2]?.bind fun cl =>
            let r := cl.conn.processRequest reqHandler s.g
            if r.1 = .pushToThreadpool then none
            else (s.pool.step (.worker i .finish)).map fun pool =>
              let cl' := { cl with conn := r.2.1, place := r.1.place }.again
                ⟨cl.conn.view, cl.conn.headers, r.1⟩
              ⟨pool, s.conns.set x.2 cl', r.2.2⟩
      | _ => none
  | .thread e =>
      if e.own then (s.pool.step e).map fun pool => { s with pool := pool } else none

/-- A server that nobody has connected to. -/
def Initial (s : HttpServer G) : Prop := s.pool = .initial ∧ s.conns = []

/-- The server and all interleavings of what happens on its sockets with the
steps of its threads. -/
def system : System (HttpServer G) ServerEvent := ⟨Initial, step reqHandler⟩

end HttpServer

end VideoMatch.Browse
