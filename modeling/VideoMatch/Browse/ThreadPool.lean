/-
VideoMatch.Browse.ThreadPool — the workers and their queues.

The I/O thread calls `push_to_threadpool`, one call after the other; each
worker runs `thread_proc`. A step is what a thread does without a chance for
the others to interfere: one reading of a queue size, the creation of a
thread, the block under the `lock_guard` of a push, and in a worker each
statement between two changes of the mutex. A waiting worker may wake up at
any time, whether it was notified or not.

Connections are of any type, and what `process_request` does with one is
left out: on a connection that has been pushed it does not push again
(`processRequest_of_threaded`). The pushes are numbered. The numbers, the
list of the calls and the lists of what a worker has received and finished
are bookkeeping that no step depends on.
-/
import VideoMatch.Machine.Ledger
import VideoMatch.Machine.Transition

namespace VideoMatch.Browse

open VideoMatch.Machine

/-- `MAX_THREAD_SIZE`. -/
def MAX_THREAD_SIZE : Nat := 16

/-- A push: its number and the connection. -/
abbrev Push (α : Type*) := Nat × α

/-! ## Workers -/

/-- Where a worker is in `thread_proc`. -/
inductive WorkerPc (α : Type*) where
  /-- in front of the `unique_lock` -/
  | outer
  /-- at the condition of the inner loop -/
  | test
  /-- at `front` and `pop_front` -/
  | take
  /-- in `process_request` -/
  | process (x : Push α)
  /-- in front of `wait` -/
  | leave
  /-- in `wait`, with or without a notification -/
  | wait (notified : Bool)
  /-- woken up, the mutex not yet taken again -/
  | woken
  /-- behind `wait` -/
  | returned

/-- The worker holds its mutex. -/
def WorkerPc.holds {α : Type*} : WorkerPc α → Bool
  | .test | .take | .process _ | .leave | .returned => true
  | .outer | .wait _ | .woken => false

/-- What the worker has taken out of the queue and not finished. -/
def WorkerPc.inHand {α : Type*} : WorkerPc α → List (Push α)
  | .process x => [x]
  | _ => []

/-- `ThreadState`. `t` says that `t_` is not null, `m` that the mutex is
taken. -/
structure ThreadState (α : Type*) where
  t : Bool := false
  q : List (Push α) := []
  m : Bool := false
  pc : WorkerPc α := .outer
  received : List (Push α) := []
  processed : List (Push α) := []

/-- The steps of a worker. -/
inductive WorkerEvent where
  | lock | test | take | finish | wait | wake | relock | unlock

namespace ThreadState

variable {α : Type*}

/-- `notify_one`: the only one who ever waits is the worker. -/
def notifyOne (th : ThreadState α) : ThreadState α :=
  match th.pc with
  | .wait _ => { th with pc := .wait true }
  | _ => th

/-- The block under the `lock_guard` of a push. -/
def push (th : ThreadState α) (x : Push α) : ThreadState α :=
  { th with q := th.q ++ [x], received := th.received ++ [x] }.notifyOne

/-- A step of the worker. -/
def step (th : ThreadState α) : WorkerEvent → Option (ThreadState α)
  | .lock =>
      match th.pc with
      | .outer => if th.m then none else some { th with m := true, pc := .test }
      | _ => none
  | .test =>
      match th.pc with
      | .test => some { th with pc := if th.q.length > 0 then .take else .leave }
      | _ => none
  | .take =>
      match th.pc, th.q with
      | .take, x :: q => some { th with q := q, pc := .process x }
      | _, _ => none
  | .finish =>
      match th.pc with
      | .process x => some { th with pc := .test, processed := th.processed ++ [x] }
      | _ => none
  | .wait =>
      match th.pc with
      | .leave => some { th with m := false, pc := .wait false }
      | _ => none
  | .wake =>
      match th.pc with
      | .wait _ => some { th with pc := .woken }
      | _ => none
  | .relock =>
      match th.pc with
      | .woken => if th.m then none else some { th with m := true, pc := .returned }
      | _ => none
  | .unlock =>
      match th.pc with
      | .returned => some { th with m := false, pc := .outer }
      | _ => none

end ThreadState

/-! ## The I/O thread -/

/-- Where the I/O thread is in `push_to_threadpool`. A negative `choice` is
`none`. -/
inductive PushPc (α : Type*) where
  | idle
  /-- at the head of the loop, or in the comparison, with the sizes of queue
  `i` and of queue `choice` as far as they have been read -/
  | scan (x : Push α) (i : Nat) (choice : Option Nat) (sizeI sizeChoice : Option Nat)
  /-- behind the loop -/
  | scanned (x : Push α) (choice : Option Nat)
  /-- at `new std::thread` -/
  | create (x : Push α)
  /-- in front of the `lock_guard` -/
  | push (x : Push α) (choice : Option Nat)

/-- The push under way. -/
def PushPc.carried {α : Type*} : PushPc α → Option (Push α)
  | .idle => none
  | .scan x .. | .scanned x _ | .create x | .push x _ => some x

/-- The server's threads. `calls` are the connections that were pushed. -/
structure Pool (α : Type*) where
  threads : Nat → ThreadState α
  threadnum : Nat
  io : PushPc α
  calls : List α

inductive PoolEvent (α : Type*) where
  /-- `push_to_threadpool` is called -/
  | call (conn : α)
  /-- the tests of the loop, up to a comparison of sizes -/
  | scan
  | readI
  | readChoice
  | compare
  | decide
  | create
  | push
  /-- worker `i` -/
  | worker (i : Nat) (e : WorkerEvent)

namespace Pool

variable {α : Type*}

def setThread (p : Pool α) (i : Nat) (th : ThreadState α) : Pool α :=
  { p with threads := Function.update p.threads i th }

/-- One step; `none` if it cannot happen. -/
def step (p : Pool α) : PoolEvent α → Option (Pool α)
  | .call conn =>
      match p.io with
      | .idle => some { p with
          io := .scan (p.calls.length, conn) 0 none none none
          calls := p.calls ++ [conn] }
      | _ => none
  | .scan =>
      match p.io with
      | .scan x i choice none none =>
          if i < p.threadnum ∧ (p.threads i).t then
            match choice with
            | none => some { p with io := .scan x (i + 1) (some i) none none }
            | some _ => none
          else some { p with io := .scanned x choice }
      | _ => none
  | .readI =>
      match p.io with
      | .scan x i (some choice) none sizeChoice =>
          if i < p.threadnum ∧ (p.threads i).t then
            some { p with io := .scan x i (some choice) (some (p.threads i).q.length) sizeChoice }
          else none
      | _ => none
  | .readChoice =>
      match p.io with
      | .scan x i (some choice) sizeI none =>
          if i < p.threadnum ∧ (p.threads i).t then
            some { p with
              io := .scan x i (some choice) sizeI (some (p.threads choice).q.length) }
          else none
      | _ => none
  | .compare =>
      match p.io with
      | .scan x i (some choice) (some sizeI) (some sizeChoice) =>
          let choice := if sizeI < sizeChoice then i else choice
          some { p with io := .scan x (i + 1) (some choice) none none }
      | _ => none
  | .decide =>
      match p.io with
      | .scanned x choice =>
          let busy : Bool := match choice with
            | none => true
            | some i => (p.threads i).q.length > 0
          if busy ∧ p.threadnum < MAX_THREAD_SIZE then some { p with io := .create x }
          else some { p with io := .push x choice }
      | _ => none
  | .create =>
      match p.io with
      | .create x =>
          some ({ p with
            threadnum := p.threadnum + 1
            io := .push x (some p.threadnum) }.setThread p.threadnum
              { p.threads p.threadnum with t := true })
      | _ => none
  | .push =>
      match p.io with
      | .push x (some i) =>
          if (p.threads i).m then none
          else some ({ p with io := .idle }.setThread i ((p.threads i).push x))
      | _ => none
  | .worker i e =>
      if (p.threads i).t then ((p.threads i).step e).map (p.setThread i) else none

/-- After the constructor of `HttpServer`. -/
def initial : Pool α :=
  { threads := fun _ => {}, threadnum := 0, io := .idle, calls := [] }

/-- The pool and all interleavings of its threads. -/
def system (α : Type*) : System (Pool α) (PoolEvent α) := ⟨(· = initial), step⟩

end Pool

end VideoMatch.Browse
