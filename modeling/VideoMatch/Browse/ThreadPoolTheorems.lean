/-
VideoMatch.Browse.ThreadPoolTheorems — the pool loses and duplicates
nothing.

A worker keeps two things by itself (`ThreadState.Inv`): what it has
received is what it has finished, what it is working on and what is in its
queue, in this order; and it waits without a notification only on an empty
queue. For the second the mutex matters: between the test of the queue and
the wait the worker holds it, so no push comes in between.

That each push reaches one worker is a matter of the I/O thread
(`PushPc.Inv`): the worker it chooses exists. The bookkeeping is
`Machine.Ledger`.
-/
import VideoMatch.Browse.HttpConnection
import VideoMatch.Browse.ThreadPool

namespace VideoMatch.Browse

open VideoMatch.Cxx VideoMatch.Machine

/-! ## Who pushes -/

namespace HttpConnection

variable {G : Type*} (reqHandler : RequestHandler G) (g : G) (c : HttpConnection)

@[simp] theorem threaded_apply (ch : Change) : (c.apply ch).threaded = c.threaded := by
  cases ch <;> rfl

@[simp] theorem threaded_foldl (changes : List Change) :
    (changes.foldl apply c).threaded = c.threaded := by
  induction changes generalizing c with
  | nil => rfl
  | cons ch changes ih => rw [List.foldl_cons, ih, threaded_apply]

/-- A connection is marked when it is pushed. -/
theorem threaded_of_push (h : (processRequest reqHandler g c).1 = .pushToThreadpool) :
    (processRequest reqHandler g c).2.1.threaded = true := by
  unfold processRequest at h ⊢
  dsimp only at h ⊢
  split at h
  · next hswitch =>
      split at h
      · cases h
      · next hthreaded => simp [hswitch, hthreaded]
  · cases h

/-- A marked connection is not pushed. -/
theorem processRequest_of_threaded (h : c.threaded = true) :
    (processRequest reqHandler g c).1 ≠ .pushToThreadpool := by
  unfold processRequest
  dsimp only
  split
  · simp [h]
  · simp

end HttpConnection

variable {α : Type*}

/-! ## One worker -/

namespace ThreadState

/-- What a worker keeps. -/
structure Inv (th : ThreadState α) : Prop where
  account : th.received = th.processed ++ th.pc.inHand ++ th.q
  mutex : th.m = th.pc.holds
  take : th.pc = .take → th.q ≠ []
  leave : th.pc = .leave → th.q = []
  wait : th.pc = .wait false → th.q = []

theorem Inv.new : Inv ({} : ThreadState α) :=
  ⟨rfl, rfl, by simp, by simp, by simp⟩

/-- What a step of a worker can be. -/
theorem step_cases {th th' : ThreadState α} {e : WorkerEvent} (h : th.step e = some th') :
    (th.pc = .outer ∧ th' = { th with m := true, pc := .test }) ∨
    (th.pc = .test ∧ th' = { th with pc := if th.q.length > 0 then .take else .leave }) ∨
    (th.pc = .take ∧ ∃ x q, th.q = x :: q ∧ th' = { th with q := q, pc := .process x }) ∨
    (∃ x, th.pc = .process x ∧
      th' = { th with pc := .test, processed := th.processed ++ [x] }) ∨
    (th.pc = .leave ∧ th' = { th with m := false, pc := .wait false }) ∨
    (∃ b, th.pc = .wait b ∧ th' = { th with pc := .woken }) ∨
    (th.pc = .woken ∧ th' = { th with m := true, pc := .returned }) ∨
    (th.pc = .returned ∧ th' = { th with m := false, pc := .outer }) := by
  cases e <;> simp only [step] at h <;> split at h <;> simp_all

/-- A worker's step is its own affair. -/
theorem step_frame {th th' : ThreadState α} {e : WorkerEvent} (h : th.step e = some th') :
    th'.t = th.t ∧ th'.received = th.received := by
  rcases step_cases h with ⟨-, rfl⟩ | ⟨-, rfl⟩ | ⟨-, x, q, -, rfl⟩ | ⟨x, -, rfl⟩ | ⟨-, rfl⟩ |
    ⟨b, -, rfl⟩ | ⟨-, rfl⟩ | ⟨-, rfl⟩ <;> exact ⟨rfl, rfl⟩

theorem Inv.step {th th' : ThreadState α} {e : WorkerEvent} (hinv : Inv th)
    (h : th.step e = some th') : Inv th' := by
  obtain ⟨haccount, hmutex, htake, hleave, -⟩ := hinv
  rcases step_cases h with ⟨hpc, rfl⟩ | ⟨hpc, rfl⟩ | ⟨hpc, x, q, hq, rfl⟩ | ⟨x, hpc, rfl⟩ |
    ⟨hpc, rfl⟩ | ⟨b, hpc, rfl⟩ | ⟨hpc, rfl⟩ | ⟨hpc, rfl⟩
  · exact ⟨by simpa [hpc, WorkerPc.inHand] using haccount, rfl, by simp, by simp, by simp⟩
  · -- the test looks at the queue as it is
    by_cases hq : th.q.length > 0
    · have hne : th.q ≠ [] := List.ne_nil_of_length_pos hq
      exact ⟨by simpa [hpc, hq, WorkerPc.inHand] using haccount,
        by simpa [hpc, hq, WorkerPc.holds] using hmutex, by simp [hne], by simp [hq], by simp [hq]⟩
    · have hnil : th.q = [] := List.eq_nil_of_length_eq_zero (by omega)
      exact ⟨by simpa [hpc, hq, hnil, WorkerPc.inHand] using haccount,
        by simpa [hpc, hq, WorkerPc.holds] using hmutex, by simp [hnil], by simp [hnil],
        by simp [hnil]⟩
  · refine ⟨?_, by simpa [hpc, WorkerPc.holds] using hmutex, by simp, by simp, by simp⟩
    simpa [hpc, hq, WorkerPc.inHand] using haccount
  · refine ⟨?_, by simpa [hpc, WorkerPc.holds] using hmutex, by simp, by simp, by simp⟩
    simpa [hpc, WorkerPc.inHand] using haccount
  · exact ⟨by simpa [hpc, WorkerPc.inHand] using haccount, rfl, by simp, by simp,
      fun _ => hleave hpc⟩
  · exact ⟨by simpa [hpc, WorkerPc.inHand] using haccount,
      by simpa [hpc, WorkerPc.holds] using hmutex, by simp, by simp, by simp⟩
  · exact ⟨by simpa [hpc, WorkerPc.inHand] using haccount, rfl, by simp, by simp, by simp⟩
  · exact ⟨by simpa [hpc, WorkerPc.inHand] using haccount, rfl, by simp, by simp, by simp⟩

/-- A push finds the worker where it does not hold the mutex, and leaves no
wait without a notification. -/
theorem Inv.push {th : ThreadState α} (hinv : Inv th) (hm : th.m = false) (x : Push α) :
    Inv (th.push x) := by
  obtain ⟨haccount, hmutex, -, -, -⟩ := hinv
  rw [hm] at hmutex
  cases hpc : th.pc with
  | outer | woken | wait b =>
      exact ⟨by simp [ThreadState.push, notifyOne, hpc, haccount, WorkerPc.inHand],
        by simp [ThreadState.push, notifyOne, hpc, hm, WorkerPc.holds],
        by simp [ThreadState.push, notifyOne, hpc], by simp [ThreadState.push, notifyOne, hpc],
        by simp [ThreadState.push, notifyOne, hpc]⟩
  | test | take | process y | leave | returned =>
      rw [hpc] at hmutex
      cases hmutex

@[simp] theorem received_push (th : ThreadState α) (x : Push α) :
    (th.push x).received = th.received ++ [x] := by
  unfold ThreadState.push notifyOne
  split <;> rfl

@[simp] theorem t_push (th : ThreadState α) (x : Push α) : (th.push x).t = th.t := by
  unfold ThreadState.push notifyOne
  split <;> rfl

end ThreadState

/-! ## The I/O thread -/

/-- A chosen worker exists, and none is chosen only if there is none. -/
def PushPc.Inv (threadnum : Nat) : PushPc α → Prop
  | .idle => True
  | .scan _ i choice sizeI _ => (choice = none → i = 0) ∧ (∀ c ∈ choice, c < threadnum) ∧
      (sizeI ≠ none → i < threadnum)
  | .scanned _ choice => (choice = none → threadnum = 0) ∧ ∀ c ∈ choice, c < threadnum
  | .create _ => threadnum < MAX_THREAD_SIZE
  | .push _ choice => ∃ c, choice = some c ∧ c < threadnum

namespace Pool

/-- What every step keeps. -/
structure Inv (p : Pool α) : Prop where
  bounded : p.threadnum ≤ MAX_THREAD_SIZE
  created : ∀ i, (p.threads i).t = true ↔ i < p.threadnum
  workers : ∀ i, (p.threads i).Inv
  io : p.io.Inv p.threadnum
  accounted : Accounted (· < p.threadnum) p.calls p.io.carried fun i => (p.threads i).received

theorem inv_initial : Inv (initial : Pool α) :=
  ⟨Nat.zero_le _, by simp [initial], fun _ => .new, trivial, .empty _⟩

section

variable {p : Pool α}

/-- The I/O thread moves on by itself. -/
theorem Inv.of_io (h : Inv p) {io : PushPc α} (hio : io.Inv p.threadnum)
    (hcarried : io.carried = p.io.carried) : Inv { p with io := io } :=
  ⟨h.bounded, h.created, h.workers, hio, hcarried ▸ h.accounted⟩

theorem Inv.call (h : Inv p) (hidle : p.io = .idle) (conn : α) :
    Inv { p with
      io := .scan (p.calls.length, conn) 0 none none none
      calls := p.calls ++ [conn] } where
  bounded := h.bounded
  created := h.created
  workers := h.workers
  io := by simp [PushPc.Inv]
  accounted := by
    have haccounted := h.accounted
    rw [hidle] at haccounted
    exact haccounted.issue conn

/-- Behind the loop a worker is chosen if there is one. -/
theorem Inv.scan (h : Inv p) {x : Push α} {i : Nat} {choice : Option Nat}
    (hio : p.io = .scan x i choice none none) {p' : Pool α} (hstep : p.step .scan = some p') :
    Inv p' := by
  have hinv := h.io
  rw [hio] at hinv
  obtain ⟨hzero, hchoice, -⟩ := hinv
  simp only [step, hio] at hstep
  by_cases hloop : i < p.threadnum ∧ (p.threads i).t
  · rw [if_pos hloop] at hstep
    cases choice with
    | none =>
        cases hstep
        exact h.of_io ⟨by simp, by simpa using hloop.1, by simp⟩ (by rw [hio]; rfl)
    | some c => cases hstep
  · rw [if_neg hloop] at hstep
    cases hstep
    refine h.of_io ⟨fun hnone => ?_, hchoice⟩ (by rw [hio]; rfl)
    by_contra hpos
    have hlt : 0 < p.threadnum := by omega
    exact hloop ⟨hzero hnone ▸ hlt, hzero hnone ▸ (h.created 0).mpr hlt⟩

/-- A reading of a size. -/
theorem Inv.read (h : Inv p) {x : Push α} {i c : Nat} {a b : Option Nat}
    (hio : p.io = .scan x i (some c) a b) (hi : i < p.threadnum) (a' b' : Option Nat) :
    Inv { p with io := .scan x i (some c) a' b' } := by
  have hinv := h.io
  rw [hio] at hinv
  exact h.of_io ⟨by simp, hinv.2.1, fun _ => hi⟩ (by rw [hio]; rfl)

theorem Inv.compare (h : Inv p) {x : Push α} {i c a b : Nat}
    (hio : p.io = .scan x i (some c) (some a) (some b)) :
    Inv { p with io := .scan x (i + 1) (some (if a < b then i else c)) none none } := by
  have hinv := h.io
  rw [hio] at hinv
  obtain ⟨-, hchoice, hi⟩ := hinv
  refine h.of_io ⟨by simp, ?_, by simp⟩ (by rw [hio]; rfl)
  have hc := hchoice c rfl
  have hi := hi (by simp)
  simp only [Option.mem_some_iff, forall_eq']
  split <;> assumption

/-- Without a worker one is created. -/
theorem Inv.decide (h : Inv p) {x : Push α} {choice : Option Nat} (hio : p.io = .scanned x choice)
    {p' : Pool α} (hstep : p.step .decide = some p') : Inv p' := by
  have hinv := h.io
  rw [hio] at hinv
  obtain ⟨hzero, hchoice⟩ := hinv
  simp only [step, hio] at hstep
  cases choice with
  | none =>
      have hnone : p.threadnum = 0 := hzero rfl
      have hroom : p.threadnum < MAX_THREAD_SIZE := by rw [hnone]; decide
      rw [if_pos ⟨rfl, hroom⟩] at hstep
      cases hstep
      exact h.of_io hroom (by rw [hio]; rfl)
  | some c =>
      by_cases hroom : (p.threads c).q.length > 0 ∧ p.threadnum < MAX_THREAD_SIZE
      · simp only [decide_eq_true_eq, if_pos hroom, Option.some.injEq] at hstep
        rw [← hstep]
        exact h.of_io hroom.2 (by rw [hio]; rfl)
      · simp only [decide_eq_true_eq, if_neg hroom, Option.some.injEq] at hstep
        rw [← hstep]
        exact h.of_io ⟨c, rfl, hchoice c rfl⟩ (by rw [hio]; rfl)

theorem Inv.create (h : Inv p) {x : Push α} (hio : p.io = .create x) :
    Inv ({ p with
      threadnum := p.threadnum + 1
      io := .push x (some p.threadnum) }.setThread p.threadnum
        { p.threads p.threadnum with t := true }) := by
  have hroom : p.threadnum < MAX_THREAD_SIZE := by
    have hinv := h.io
    rw [hio] at hinv
    exact hinv
  have haccounted := h.accounted
  rw [hio] at haccounted
  refine ⟨hroom, fun i => ?_, fun i => ?_, ⟨_, rfl, Nat.lt_succ_self _⟩, ?_⟩
  · by_cases hi : i = p.threadnum
    · simp [setThread, hi]
    · have hcreated := h.created i
      simp only [setThread, Function.update_of_ne hi, hcreated]
      omega
  · by_cases hi : i = p.threadnum
    · have hworker := h.workers p.threadnum
      simp only [setThread, hi, Function.update_self]
      exact ⟨hworker.account, hworker.mutex, hworker.take, hworker.leave, hworker.wait⟩
    · simpa only [setThread, Function.update_of_ne hi] using h.workers i
  · have hsame : (fun i => (Function.update p.threads p.threadnum
        { p.threads p.threadnum with t := true } i).received)
        = fun i => (p.threads i).received := by
      funext i
      by_cases hi : i = p.threadnum
      · simp [hi]
      · simp [hi]
    show Accounted (· < p.threadnum + 1) p.calls (some x) fun i => (Function.update p.threads
      p.threadnum { p.threads p.threadnum with t := true } i).received
    rw [hsame]
    exact haccounted.mono fun i hi => Nat.lt_succ_of_lt hi

theorem Inv.push (h : Inv p) {x : Push α} {i : Nat} (hio : p.io = .push x (some i))
    (hm : (p.threads i).m = false) :
    Inv ({ p with io := .idle }.setThread i ((p.threads i).push x)) := by
  have hlive : i < p.threadnum := by
    have hinv := h.io
    rw [hio] at hinv
    obtain ⟨c, hc, hlt⟩ := hinv
    cases hc
    exact hlt
  have haccounted := h.accounted
  rw [hio] at haccounted
  refine ⟨h.bounded, fun j => ?_, fun j => ?_, trivial, ?_⟩
  · by_cases hj : j = i
    · simp [setThread, hj, h.created i]
    · simp [setThread, hj, h.created j]
  · by_cases hj : j = i
    · simpa only [setThread, hj, Function.update_self] using (h.workers i).push hm x
    · simpa only [setThread, Function.update_of_ne hj] using h.workers j
  · have hboxes : (fun j => (Function.update p.threads i ((p.threads i).push x) j).received)
        = Function.update (fun j => (p.threads j).received) i ((p.threads i).received ++ [x]) := by
      funext j
      by_cases hj : j = i
      · subst hj
        simp
      · simp [hj]
    show Accounted (· < p.threadnum) p.calls none fun j =>
      (Function.update p.threads i ((p.threads i).push x) j).received
    rw [hboxes]
    exact haccounted.deliver hlive

/-- A worker's step changes neither the account nor another worker. -/
theorem Inv.worker (h : Inv p) {i : Nat} {e : WorkerEvent} {th : ThreadState α}
    (hstep : (p.threads i).step e = some th) : Inv (p.setThread i th) := by
  obtain ⟨ht, hreceived⟩ := ThreadState.step_frame hstep
  refine ⟨h.bounded, fun j => ?_, fun j => ?_, h.io, ?_⟩
  · by_cases hj : j = i
    · simp [setThread, hj, ht, h.created i]
    · simp [setThread, hj, h.created j]
  · by_cases hj : j = i
    · simpa only [setThread, hj, Function.update_self] using (h.workers i).step hstep
    · simpa only [setThread, Function.update_of_ne hj] using h.workers j
  · have hsame : (fun j => (Function.update p.threads i th j).received)
        = fun j => (p.threads j).received := by
      funext j
      by_cases hj : j = i
      · subst hj
        simp [hreceived]
      · simp [hj]
    show Accounted (· < p.threadnum) p.calls p.io.carried fun j =>
      (Function.update p.threads i th j).received
    rw [hsame]
    exact h.accounted

theorem Inv.step (h : Inv p) {e : PoolEvent α} {p' : Pool α} (hstep : p.step e = some p') :
    Inv p' := by
  cases e with
  | call conn =>
      simp only [Pool.step] at hstep
      split at hstep
      · next hidle => cases hstep; exact h.call hidle conn
      · cases hstep
  | scan =>
      cases hio : p.io with
      | scan x i choice a b =>
          cases a with
          | some a => simp [Pool.step, hio] at hstep
          | none =>
              cases b with
              | some b => simp [Pool.step, hio] at hstep
              | none => exact h.scan hio hstep
      | idle | scanned x choice | create x | push x choice => simp [Pool.step, hio] at hstep
  | readI =>
      simp only [Pool.step] at hstep
      split at hstep
      · next hio =>
          split at hstep
          · next hi => cases hstep; exact h.read hio hi.1 _ _
          · cases hstep
      · cases hstep
  | readChoice =>
      simp only [Pool.step] at hstep
      split at hstep
      · next hio =>
          split at hstep
          · next hi => cases hstep; exact h.read hio hi.1 _ _
          · cases hstep
      · cases hstep
  | compare =>
      simp only [Pool.step] at hstep
      split at hstep
      · next hio => cases hstep; exact h.compare hio
      · cases hstep
  | decide =>
      cases hio : p.io with
      | scanned x choice => exact h.decide hio hstep
      | idle | scan x i choice a b | create x | push x choice => simp [Pool.step, hio] at hstep
  | create =>
      simp only [Pool.step] at hstep
      split at hstep
      · next hio => cases hstep; exact h.create hio
      · cases hstep
  | push =>
      simp only [Pool.step] at hstep
      split at hstep
      · next hio =>
          split at hstep
          · cases hstep
          · next hm => cases hstep; exact h.push hio (by simpa using hm)
      · cases hstep
  | worker i e =>
      simp only [Pool.step] at hstep
      split at hstep
      · obtain ⟨th, hth, rfl⟩ := Option.map_eq_some_iff.mp hstep
        exact h.worker hth
      · cases hstep

end

theorem inv_of_reachable {p : Pool α} (h : (system α).Reachable p) : Inv p :=
  h.invariant (P := Inv) (fun _ hp => hp ▸ inv_initial) fun _ _ _ hinv hstep => hinv.step hstep

/-- In every reachable state: at most 16 workers have been created, and a push
goes to one of them. Each push that is not under way has gone to one existing
worker, once, and no other worker has taken it out of its queue. What a worker
has received are pushes, and it is what the worker has finished, what it is
working on and what is in its queue. No worker waits without a notification in
front of a queue that is not empty. -/
theorem pool_delivers {p : Pool α} (h : (system α).Reachable p) :
    p.threadnum ≤ MAX_THREAD_SIZE ∧ (∀ i, (p.threads i).t = true ↔ i < p.threadnum) ∧
    (∀ x choice, p.io = .push x choice → ∃ i < p.threadnum, choice = some i) ∧
    (∀ k conn, p.calls[k]? = some conn → (∀ x ∈ p.io.carried, x.1 ≠ k) →
      ∃ i < p.threadnum, (k, conn) ∈ (p.threads i).received ∧
        ∀ j, (numbers (p.threads j).received).count k = (if j = i then 1 else 0) ∧
          (numbers ((p.threads j).processed ++ (p.threads j).pc.inHand)).count k
            ≤ if j = i then 1 else 0) ∧
    (∀ i, (∀ x ∈ (p.threads i).received, p.calls[x.1]? = some x.2) ∧
      (p.threads i).received
        = (p.threads i).processed ++ (p.threads i).pc.inHand ++ (p.threads i).q) ∧
    ∀ i, (p.threads i).pc = .wait false → (p.threads i).q = [] := by
  have hinv := inv_of_reachable h
  refine ⟨hinv.bounded, hinv.created, fun x choice hio => ?_, fun k conn hk hcarried => ?_,
    fun i => ⟨hinv.accounted.genuine i, (hinv.workers i).account⟩, fun i => (hinv.workers i).wait⟩
  · have hchosen := hinv.io
    rw [hio] at hchosen
    obtain ⟨i, hi, hlt⟩ := hchosen
    exact ⟨i, hlt, hi⟩
  obtain ⟨i, hi, hmem, hcount⟩ := hinv.accounted.delivered k conn hk hcarried
  refine ⟨i, hi, hmem, fun j => ⟨hcount j, ?_⟩⟩
  have htaken : (numbers ((p.threads j).processed ++ (p.threads j).pc.inHand)).count k
      ≤ (numbers (p.threads j).received).count k := by
    simp only [(hinv.workers j).account, numbers_append, List.count_append]
    omega
  exact htaken.trans (hcount j).le

/-- One connection is pushed, and its worker finishes it. -/
def onePush : List (PoolEvent Nat) :=
  [.call 7, .scan, .decide, .create, .worker 0 .lock, .worker 0 .test, .worker 0 .wait, .push,
    .worker 0 .wake, .worker 0 .relock, .worker 0 .unlock, .worker 0 .lock, .worker 0 .test,
    .worker 0 .take, .worker 0 .finish]

theorem pool_delivers_one_push : ∃ p : Pool Nat, p.calls = [7] ∧
    (p.threads 0).processed = [(0, 7)] ∧
    ∃ i < p.threadnum, (0, 7) ∈ (p.threads i).received ∧
      ∀ j, (numbers (p.threads j).received).count 0 = (if j = i then 1 else 0) ∧
        (numbers ((p.threads j).processed ++ (p.threads j).pc.inHand)).count 0
          ≤ if j = i then 1 else 0 := by
  obtain ⟨p, hp⟩ : ∃ p, (system Nat).run initial onePush = some p := ⟨_, rfl⟩
  have hcalls : ((system Nat).run initial onePush).map calls = some [7] := rfl
  have hdone : ((system Nat).run initial onePush).map (fun p => (p.threads 0).processed)
      = some [(0, 7)] := rfl
  have hcarried : ((system Nat).run initial onePush).map (fun p => p.io.carried) = some none := rfl
  rw [hp, Option.map_some, Option.some.injEq] at hcalls hdone hcarried
  obtain ⟨-, -, -, hdelivered, -⟩ := pool_delivers (System.reachable_of_run onePush (.init rfl) hp)
  exact ⟨p, hcalls, hdone, hdelivered 0 7 (by rw [hcalls]; rfl) (by rw [hcarried]; nofun)⟩

end Pool

end VideoMatch.Browse
