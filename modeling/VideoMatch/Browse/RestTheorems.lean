/-
VideoMatch.Browse.RestTheorems — the pool does all that it was given.

Each step of a thread uses up work (`Pool.work`), except that a new call
brings some, and so does a spurious wake-up: the worker takes its mutex,
finds nothing and waits again. So the threads cannot be busy for ever with
what they were given (`pool_finishes`). And they do not block each other: if
nothing can happen but a call or a spurious wake-up, the I/O thread has put
each connection into a queue and the workers have processed them all.
-/
import VideoMatch.Browse.ThreadPoolTheorems
import VideoMatch.Machine.Budget

namespace VideoMatch.Browse

open VideoMatch.Machine

variable {α : Type*}

/-! ## One worker -/

/-- In `wait` without a notification. -/
def WorkerPc.waits : WorkerPc α → Bool
  | .wait false => true
  | _ => false

/-- The steps up to `wait`, beyond those for the queue. -/
def WorkerPc.work : WorkerPc α → Nat
  | .wait false => 0
  | .leave | .take => 1
  | .test => 2
  | .outer | .process _ => 3
  | .returned => 4
  | .woken => 5
  | .wait true => 6

namespace ThreadState

/-- The work of a worker; a connection in the queue takes three steps. -/
def work (th : ThreadState α) : Nat := if th.t then th.pc.work + 3 * th.q.length else 0

variable {th th' : ThreadState α}

theorem work_of_created (h : th.t = true) : th.work = th.pc.work + 3 * th.q.length := if_pos h

/-- A step uses up work, unless it is a spurious wake-up. -/
theorem work_step {e : WorkerEvent} (ht : th.t = true) (h : th.step e = some th') :
    th'.work + 1 ≤ th.work + 6 * th.pc.waits.toNat := by
  have ht' : th'.t = true := (step_frame h).1.trans ht
  rw [work_of_created ht, work_of_created ht']
  rcases step_cases h with ⟨hpc, rfl⟩ | ⟨hpc, rfl⟩ | ⟨hpc, x, q, hq, rfl⟩ | ⟨x, hpc, rfl⟩ |
    ⟨hpc, rfl⟩ | ⟨b, hpc, rfl⟩ | ⟨hpc, rfl⟩ | ⟨hpc, rfl⟩
  · simp [hpc, WorkerPc.work, WorkerPc.waits]
  · by_cases hq : th.q.length > 0 <;> simp [hpc, hq, WorkerPc.work, WorkerPc.waits]
  · simp only [hpc, hq, WorkerPc.work, List.length_cons]
    omega
  · simp only [hpc, WorkerPc.work]
    omega
  · simp only [hpc, WorkerPc.work]
    omega
  · cases b <;> simp [hpc, WorkerPc.work, WorkerPc.waits]
    omega
  · simp only [hpc, WorkerPc.work]
    omega
  · simp only [hpc, WorkerPc.work]
    omega

/-- What a push brings. -/
theorem work_push (ht : th.t = true) (x : Push α) : (th.push x).work ≤ th.work + 9 := by
  rw [work_of_created ht, work_of_created ((t_push th x).trans ht)]
  unfold ThreadState.push notifyOne
  cases hpc : th.pc with
  | wait b => cases b <;> simp [WorkerPc.work] <;> omega
  | outer | test | take | process y | leave | woken | returned => simp [WorkerPc.work]; omega

/-- A worker can always go on, if only by a wake-up. -/
theorem Inv.exists_step (hinv : th.Inv) : ∃ e th', th.step e = some th' := by
  have hfree : th.pc.holds = false → th.m = false := fun hpc => hinv.mutex.trans hpc
  suffices h : ∃ e, (th.step e).isSome = true by
    obtain ⟨e, he⟩ := h
    exact ⟨e, Option.isSome_iff_exists.mp he⟩
  cases hpc : th.pc with
  | outer => exact ⟨.lock, by simp [ThreadState.step, hpc, hfree, WorkerPc.holds]⟩
  | test => exact ⟨.test, by simp [ThreadState.step, hpc]⟩
  | take =>
      obtain ⟨x, q, hq⟩ := List.exists_cons_of_ne_nil (hinv.take hpc)
      exact ⟨.take, by simp [ThreadState.step, hpc, hq]⟩
  | process x => exact ⟨.finish, by simp [ThreadState.step, hpc]⟩
  | leave => exact ⟨.wait, by simp [ThreadState.step, hpc]⟩
  | wait b => exact ⟨.wake, by simp [ThreadState.step, hpc]⟩
  | woken => exact ⟨.relock, by simp [ThreadState.step, hpc, hfree, WorkerPc.holds]⟩
  | returned => exact ⟨.unlock, by simp [ThreadState.step, hpc]⟩

/-- A worker that waits has done what it received. -/
theorem Inv.processed_of_waits (hinv : th.Inv) (h : th.pc.waits = true) :
    th.m = false ∧ th.processed = th.received := by
  have hpc : th.pc = .wait false := by
    cases hpc : th.pc with
    | wait b =>
        cases b with
        | false => rfl
        | true => rw [hpc] at h; cases h
    | outer | test | take | process y | leave | woken | returned => rw [hpc] at h; cases h
  have hmutex := hinv.mutex
  have haccount := hinv.account
  rw [hpc] at hmutex haccount
  rw [hinv.wait hpc] at haccount
  simp only [WorkerPc.inHand, List.append_nil] at haccount
  exact ⟨hmutex, haccount.symm⟩

end ThreadState

/-! ## The I/O thread -/

/-- The steps of a push, and those of the worker that it creates or wakes
up. A queue takes up to three steps, and the push itself brings nine. -/
def PushPc.work : PushPc α → Nat
  | .idle => 0
  | .scan _ i _ sizeI sizeChoice =>
      16 + 4 * (MAX_THREAD_SIZE - i) + sizeI.isNone.toNat + sizeChoice.isNone.toNat
  | .scanned _ _ => 15
  | .create _ => 14
  | .push _ _ => 10

/-- Sizes are read of two existing workers. -/
def PushPc.Reading (threadnum : Nat) : PushPc α → Prop
  | .scan _ i choice sizeI sizeChoice =>
      sizeI ≠ none ∨ sizeChoice ≠ none → choice ≠ none ∧ i < threadnum
  | _ => True

namespace Pool

/-- A step of a worker that waits without a notification. -/
def spurious (p : Pool α) : PoolEvent α → Bool
  | .worker i _ => (p.threads i).pc.waits
  | _ => false

/-- The calls and the spurious wake-ups. -/
def fromOutside (p : Pool α) : PoolEvent α → Bool
  | .call _ => true
  | e => p.spurious e

def work (p : Pool α) : Nat :=
  p.io.work + ∑ i ∈ Finset.range MAX_THREAD_SIZE, (p.threads i).work

/-- What the threads can do. -/
theorem step_cases {p p' : Pool α} {e : PoolEvent α} (hinv : Inv p) (h : p.step e = some p') :
    (∃ conn, e = .call conn ∧ p.io = .idle ∧ p' = { p with
      io := .scan (p.calls.length, conn) 0 none none none
      calls := p.calls ++ [conn] }) ∨
    (∃ io, p.fromOutside e = false ∧ io.work < p.io.work ∧ io.Reading p.threadnum ∧
      p' = { p with io := io }) ∨
    (∃ x, e = .create ∧ p.io = .create x ∧ p' = { p with
      threadnum := p.threadnum + 1
      io := .push x (some p.threadnum) }.setThread p.threadnum
        { p.threads p.threadnum with t := true }) ∨
    (∃ x i, e = .push ∧ p.io = .push x (some i) ∧ i < p.threadnum ∧
      p' = { p with io := .idle }.setThread i ((p.threads i).push x)) ∨
    ∃ i we th, e = .worker i we ∧ i < p.threadnum ∧ (p.threads i).step we = some th ∧
      p' = p.setThread i th := by
  have hinvio := hinv.io
  have hbounded := hinv.bounded
  cases e with
  | call conn =>
      simp only [Pool.step] at h
      split at h
      · next hio => cases h; exact .inl ⟨conn, rfl, hio, rfl⟩
      · cases h
  | scan =>
      refine .inr (.inl ?_)
      simp only [Pool.step] at h
      split at h
      · next x i choice hio =>
          split at h
          · next hi =>
              split at h
              · cases h
                refine ⟨_, rfl, ?_, by simp [PushPc.Reading], rfl⟩
                simp only [hio, PushPc.work]
                omega
              · cases h
          · cases h
            refine ⟨_, rfl, ?_, by trivial, rfl⟩
            simp only [hio, PushPc.work]
            omega
      · cases h
  | readI =>
      refine .inr (.inl ?_)
      simp only [Pool.step] at h
      split at h
      · next hio =>
          split at h
          · next hi =>
              cases h
              exact ⟨_, rfl, by simp [hio, PushPc.work], fun _ => ⟨by simp, hi.1⟩, rfl⟩
          · cases h
      · cases h
  | readChoice =>
      refine .inr (.inl ?_)
      simp only [Pool.step] at h
      split at h
      · next hio =>
          split at h
          · next hi =>
              cases h
              exact ⟨_, rfl, by simp [hio, PushPc.work], fun _ => ⟨by simp, hi.1⟩, rfl⟩
          · cases h
      · cases h
  | compare =>
      refine .inr (.inl ?_)
      simp only [Pool.step] at h
      split at h
      · next hio =>
          rw [hio] at hinvio
          have hi := hinvio.2.2 (by simp)
          cases h
          refine ⟨_, rfl, ?_, by simp [PushPc.Reading], rfl⟩
          simp only [hio, PushPc.work, Option.isNone_none, Option.isNone_some, Bool.toNat_true,
            Bool.toNat_false]
          omega
      · cases h
  | decide =>
      refine .inr (.inl ?_)
      simp only [Pool.step] at h
      split at h
      · next hio =>
          rcases ite_eq_iff.mp h with ⟨-, h⟩ | ⟨-, h⟩ <;> cases h <;>
            exact ⟨_, rfl, by simp [hio, PushPc.work], by trivial, rfl⟩
      · cases h
  | create =>
      refine .inr (.inr (.inl ?_))
      simp only [Pool.step] at h
      split at h
      · next x hio => cases h; exact ⟨x, rfl, hio, rfl⟩
      · cases h
  | push =>
      refine .inr (.inr (.inr (.inl ?_)))
      simp only [Pool.step] at h
      split at h
      · next x i hio =>
          rw [hio] at hinvio
          obtain ⟨c, hc, hlt⟩ := hinvio
          cases hc
          split at h
          · cases h
          · cases h
            exact ⟨x, i, rfl, hio, hlt, rfl⟩
      · cases h
  | worker i we =>
      refine .inr (.inr (.inr (.inr ?_)))
      simp only [Pool.step] at h
      split at h
      · next ht =>
          obtain ⟨th, hth, rfl⟩ := Option.map_eq_some_iff.mp h
          exact ⟨i, we, th, rfl, (hinv.created i).mp ht, hth, rfl⟩
      · cases h

/-! ## Work -/

section

variable {p p' : Pool α} {e : PoolEvent α}

theorem work_setThread (p : Pool α) {i : Nat} (hi : i < MAX_THREAD_SIZE) (th : ThreadState α) :
    (p.setThread i th).work + (p.threads i).work = p.work + th.work := by
  have hmem : i ∈ Finset.range MAX_THREAD_SIZE := Finset.mem_range.mpr hi
  have hsame : ∀ j ∈ (Finset.range MAX_THREAD_SIZE).erase i,
      ((p.setThread i th).threads j).work = (p.threads j).work := by
    intro j hj
    simp only [setThread, Function.update_of_ne (Finset.ne_of_mem_erase hj)]
  rw [work, work, ← Finset.add_sum_erase _ _ hmem, ← Finset.add_sum_erase _ _ hmem,
    Finset.sum_congr rfl hsame]
  simp only [setThread, Function.update_self]
  omega

/-- What is needed besides the invariant: the threads that have not been
created have done nothing, and sizes are read of existing workers. -/
structure Orderly (p : Pool α) : Prop where
  inv : Inv p
  fresh : ∀ i, p.threadnum ≤ i → p.threads i = {}
  reading : p.io.Reading p.threadnum

theorem orderly_initial : Orderly (initial : Pool α) := ⟨inv_initial, fun _ _ => rfl, trivial⟩

theorem Orderly.step (h : p.Orderly) (hstep : p.step e = some p') : p'.Orderly := by
  have hset : ∀ {n i : Nat} {th : ThreadState α}, p.threadnum ≤ n → i < n →
      ∀ j, n ≤ j → Function.update p.threads i th j = {} := by
    intro n i th hle hi j hj
    rw [Function.update_of_ne (by omega)]
    exact h.fresh j (hle.trans hj)
  have hinv := h.inv.step hstep
  rcases step_cases h.inv hstep with ⟨conn, -, -, rfl⟩ | ⟨io, -, -, hreading, rfl⟩ |
    ⟨x, -, -, rfl⟩ | ⟨x, i, -, -, hi, rfl⟩ | ⟨i, we, th, -, hi, -, rfl⟩
  · exact ⟨hinv, h.fresh, by simp [PushPc.Reading]⟩
  · exact ⟨hinv, h.fresh, hreading⟩
  · exact ⟨hinv, hset (Nat.le_succ _) (Nat.lt_succ_self _), trivial⟩
  · exact ⟨hinv, hset le_rfl hi, trivial⟩
  · exact ⟨hinv, hset le_rfl hi, h.reading⟩

/-- Each step costs one unit of work. A call brings 83 and a spurious wake-up
six. -/
theorem Orderly.work_step (h : p.Orderly) (hstep : p.step e = some p') :
    p'.work + 83 * p.calls.length + 1
      ≤ p.work + 83 * p'.calls.length + 6 * (p.spurious e).toNat := by
  have hinv := h.inv
  have hbounded := hinv.bounded
  rcases step_cases hinv hstep with ⟨conn, rfl, hio, rfl⟩ | ⟨io, -, hless, -, rfl⟩ |
    ⟨x, rfl, hio, rfl⟩ | ⟨x, i, rfl, hio, hi, rfl⟩ | ⟨i, we, th, rfl, hi, hth, rfl⟩
  · have hcall : PushPc.work (.scan (p.calls.length, conn) 0 none none none) = 82 := rfl
    simp only [work, hio, hcall, List.length_append, List.length_singleton]
    simp only [PushPc.work]
    omega
  · simp only [work]
    omega
  · have hroom : p.threadnum < MAX_THREAD_SIZE := by
      have hinvio := hinv.io
      rw [hio] at hinvio
      exact hinvio
    have hold : (p.threads p.threadnum).work = 0 := by rw [h.fresh p.threadnum le_rfl]; rfl
    have hnew : ThreadState.work { p.threads p.threadnum with t := true } = 3 := by
      rw [h.fresh p.threadnum le_rfl]
      rfl
    have hset := work_setThread { p with
      threadnum := p.threadnum + 1
      io := .push x (some p.threadnum) } hroom { p.threads p.threadnum with t := true }
    simp only [work, setThread, hio, hold, hnew, PushPc.work] at hset ⊢
    omega
  · have hpush := (p.threads i).work_push ((hinv.created i).mpr hi) x
    have hset := work_setThread { p with io := .idle } (hi.trans_le hbounded)
      ((p.threads i).push x)
    simp only [work, setThread, hio, PushPc.work] at hset ⊢
    omega
  · have hworker := ThreadState.work_step ((hinv.created i).mpr hi) hth
    have hset := work_setThread p (hi.trans_le hbounded) th
    have hcalls : (p.setThread i th).calls = p.calls := rfl
    rw [hcalls, spurious]
    omega

/-- Without calls and spurious wake-ups there is less and less work. -/
theorem Orderly.work_lt (h : p.Orderly) (hstep : p.step e = some p')
    (hinside : p.fromOutside e = false) : p'.work < p.work ∧ p'.calls = p.calls := by
  have hpaid := h.work_step hstep
  have hcalls : p'.calls = p.calls := by
    rcases step_cases h.inv hstep with ⟨conn, rfl, -, -⟩ | ⟨io, -, -, -, rfl⟩ |
      ⟨x, -, -, rfl⟩ | ⟨x, i, -, -, -, rfl⟩ | ⟨i, we, th, -, -, -, rfl⟩
    · cases hinside
    all_goals rfl
  have hspurious : p.spurious e = false := by
    cases e with
    | call conn => rfl
    | scan | readI | readChoice | compare | decide | create | push | worker => exact hinside
  rw [hcalls, hspurious, Bool.toNat_false] at hpaid
  exact ⟨by omega, hcalls⟩

/-! ## Rest -/

/-- The I/O thread can go on while nobody holds a mutex. -/
theorem Orderly.exists_io_step (h : p.Orderly) (hio : p.io ≠ .idle)
    (hfree : ∀ i < p.threadnum, (p.threads i).m = false) :
    ∃ e p', p.step e = some p' ∧ p.fromOutside e = false := by
  have hinvio := h.inv.io
  have hreading := h.reading
  suffices hsome : ∃ e, (p.step e).isSome = true ∧ p.fromOutside e = false by
    obtain ⟨e, he, hinside⟩ := hsome
    obtain ⟨p', hp'⟩ := Option.isSome_iff_exists.mp he
    exact ⟨e, p', hp', hinside⟩
  cases hpc : p.io with
  | idle => exact absurd hpc hio
  | scan x i choice sizeI sizeChoice =>
      rw [hpc] at hreading
      by_cases hnone : sizeI = none ∧ sizeChoice = none
      · obtain ⟨rfl, rfl⟩ := hnone
        by_cases hloop : i < p.threadnum ∧ (p.threads i).t
        · cases choice with
          | none => exact ⟨.scan, by simp [Pool.step, hpc, hloop], rfl⟩
          | some c => exact ⟨.readI, by simp [Pool.step, hpc, hloop], rfl⟩
        · exact ⟨.scan, by simp [Pool.step, hpc, hloop], rfl⟩
      · obtain ⟨hchoice, hi⟩ := hreading (by tauto)
        obtain ⟨c, rfl⟩ := Option.ne_none_iff_exists'.mp hchoice
        have ht := (h.inv.created i).mpr hi
        cases sizeI with
        | none => exact ⟨.readI, by simp [Pool.step, hpc, hi, ht], rfl⟩
        | some a =>
            cases sizeChoice with
            | none => exact ⟨.readChoice, by simp [Pool.step, hpc, hi, ht], rfl⟩
            | some b => exact ⟨.compare, by simp [Pool.step, hpc], rfl⟩
  | scanned x choice =>
      refine ⟨.decide, ?_, rfl⟩
      simp only [Pool.step, hpc]
      split <;> split <;> rfl
  | create x => exact ⟨.create, by simp [Pool.step, hpc], rfl⟩
  | push x choice =>
      rw [hpc] at hinvio
      obtain ⟨c, rfl, hc⟩ := hinvio
      exact ⟨.push, by simp [Pool.step, hpc, hfree c hc], rfl⟩

/-- Everything that was called for has been done, by one worker and once. -/
structure Finished (p : Pool α) : Prop where
  idle : p.io = .idle
  processed : ∀ k conn, p.calls[k]? = some conn → ∃ i, (k, conn) ∈ (p.threads i).processed ∧
    ∀ j, (numbers (p.threads j).processed).count k = if j = i then 1 else 0

/-- At rest everything has been done. -/
theorem Orderly.finished (h : p.Orderly) (hrest : (system α).Rests fromOutside p) :
    p.Finished := by
  have hwaits : ∀ i < p.threadnum, (p.threads i).pc.waits = true := by
    intro i hi
    obtain ⟨we, th, hth⟩ := (h.inv.workers i).exists_step
    have ht := (h.inv.created i).mpr hi
    exact hrest (.worker i we) (p.setThread i th) (by simp [system, Pool.step, ht, hth])
  have hdone : ∀ i, (p.threads i).processed = (p.threads i).received := by
    intro i
    by_cases hi : i < p.threadnum
    · exact ((h.inv.workers i).processed_of_waits (hwaits i hi)).2
    · rw [h.fresh i (by omega)]
  have hidle : p.io = .idle := by
    by_contra hio
    obtain ⟨e, p', hstep, hinside⟩ := h.exists_io_step hio fun i hi =>
      ((h.inv.workers i).processed_of_waits (hwaits i hi)).1
    rw [hrest e p' hstep] at hinside
    cases hinside
  refine ⟨hidle, fun k conn hk => ?_⟩
  have hcarried : ∀ x ∈ p.io.carried, x.1 ≠ k := by simp [hidle, PushPc.carried]
  obtain ⟨i, -, hmem, hcount⟩ := h.inv.accounted.delivered k conn hk hcarried
  exact ⟨i, by rwa [hdone i], fun j => by rw [hdone j]; exact hcount j⟩

/-- The pool comes to rest and does all that it was given. A run from the
start has at most 83 steps for each call and six for each spurious wake-up.
At any time the threads, left alone, can get to a state in which every
connection that has been pushed has been processed, by one worker and once;
and they are in such a state whenever nothing is possible but a call or a
spurious wake-up. -/
theorem pool_finishes {es : List (PoolEvent α)} (h : (system α).run initial es = some p) :
    es.length ≤ 83 * p.calls.length + 6 * (system α).marked spurious initial es ∧
    (∃ es' q, ((system α).alone fromOutside).run p es' = some q ∧ q.calls = p.calls ∧
      q.Finished) ∧
    ((system α).Rests fromOutside p → p.Finished) := by
  have hp : p.Orderly := by
    have hreachable := System.reachable_of_run es (.init rfl) h
    exact hreachable.invariant (fun _ h0 => h0 ▸ orderly_initial)
      fun _ _ _ hs hstep => hs.step hstep
  have hpaid := System.length_le_of_paid work (fun q : Pool α => 83 * q.calls.length) spurious
    (fun _ _ _ hs hstep => Orderly.step hs hstep) (fun _ _ _ hs hstep => hs.work_step hstep) es
    orderly_initial h
  refine ⟨?_, ?_, hp.finished⟩
  · have hzero : (initial : Pool α).work = 0 := by
      simp [work, initial, PushPc.work, ThreadState.work]
    have hnone : (initial : Pool α).calls.length = 0 := rfl
    rw [hzero, hnone] at hpaid
    omega
  · obtain ⟨es', q, hrun, ⟨hq, hcalls⟩, hrest⟩ : ∃ es' q,
        ((system α).alone fromOutside).run p es' = some q ∧
          (q.Orderly ∧ q.calls = p.calls) ∧ (system α).Rests fromOutside q :=
      System.exists_rest work
        (fun _ _ _ hs hstep hinside =>
          ⟨hs.1.step hstep, (hs.1.work_lt hstep hinside).2.trans hs.2⟩)
        (fun _ _ _ hs hstep hinside => (hs.1.work_lt hstep hinside).1) ⟨hp, rfl⟩
    exact ⟨es', q, hrun, hcalls, hq.finished hrest⟩

theorem pool_finishes_one_push : ∃ (es : List (PoolEvent Nat)) (p q : Pool Nat),
    (system Nat).run initial onePush = some p ∧
    ((system Nat).alone fromOutside).run p es = some q ∧ q.calls = [7] ∧ q.Finished := by
  obtain ⟨p, hp⟩ : ∃ p, (system Nat).run initial onePush = some p := ⟨_, rfl⟩
  have hcalls : ((system Nat).run initial onePush).map calls = some [7] := rfl
  rw [hp] at hcalls
  obtain ⟨-, ⟨es, q, hrun, hq, hfinished⟩, -⟩ := pool_finishes hp
  exact ⟨es, p, q, hp, hrun, hq.trans (Option.some.inj hcalls), hfinished⟩

end

end Pool

end VideoMatch.Browse
