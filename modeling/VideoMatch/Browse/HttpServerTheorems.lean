/-
VideoMatch.Browse.HttpServerTheorems — each connection is served as though
it were alone.

`lone` is one connection with its handler, one request after the other; what
the handler finds of its own state at a call is part of the event. In every
interleaving each connection of the server is somewhere in such a run
(`Peer.Follows`), so from the others it sees nothing but what the handler
keeps.

The reason is that a connection is in one place at a time: a connection has
been pushed and not processed exactly if its place is the pool, and then
there is one such push (`Inv.pooled`, `Inv.once`). The I/O thread touches
only connections that are not there.

Left alone, the server answers all requests that it has read
(`connections_alone`).
-/
import VideoMatch.Browse.HttpServer
import VideoMatch.Browse.RestTheorems

namespace VideoMatch.Browse

open VideoMatch.Cxx VideoMatch.Machine

open HttpConnection (Call Decision Reading RequestHandler feed)

/-! ## One connection -/

section

variable {G : Type*} (reqHandler : RequestHandler G)

/-- The call of the handler for `c`. -/
def callOf (g : G) (c : HttpConnection) : Call :=
  ⟨c.view, c.headers, (c.processRequest reqHandler g).1⟩

/-- A parsed request is handled, by a worker too if it was pushed; `g` and
`g'` are the states that the handler finds. -/
def handleAt (g g' : G) (c : HttpConnection) : List Call × HttpConnection :=
  let first := c.processRequest reqHandler g
  if first.1 = .pushToThreadpool then
    ([callOf reqHandler g c, callOf reqHandler g' first.2.1],
      (first.2.1.processRequest reqHandler g').2.1)
  else ([callOf reqHandler g c], first.2.1)

/-- A connection and the calls for each of its requests. -/
structure Lone where
  conn : HttpConnection
  log : List (List Call)

/-- One request after the other. -/
def lone : System Lone (List Bytes × G × G) where
  init l := (∃ state type httpRet postsize,
    l.conn = (HttpConnection.new state type httpRet postsize).start) ∧ l.log = []
  step l e :=
    match feed l.conn e.1 with
    | .parsed c => some ⟨(handleAt reqHandler e.2.1 e.2.2 c).2.handleWrite,
        l.log ++ [(handleAt reqHandler e.2.1 e.2.2 c).1]⟩
    | _ => none

/-- The last call answers the request, and those before it have pushed it. -/
def AnsweredOnce (calls : List Call) : Prop :=
  ∃ pushes last written, calls = pushes ++ [last] ∧
    (∀ call ∈ pushes, call.decision = .pushToThreadpool) ∧
    (last.decision = .respond (some written) ∨ last.decision = .badHandler (some written))

/-- Where the connection is in a run of its own. -/
def Peer.Follows (cl : Peer) (l : Lone) : Prop :=
  match cl.place with
  | .reading => cl.log = l.log ∧ feed l.conn cl.reads = .more cl.conn
  | .pooled => ∃ c g, feed l.conn cl.reads = .parsed c ∧
      (c.processRequest reqHandler g).1 = .pushToThreadpool ∧
      (c.processRequest reqHandler g).2.1 = cl.conn ∧
      cl.log = l.log ++ [[callOf reqHandler g c]]
  | .writing => cl.log = l.log ∧ cl.conn.handleWrite = l.conn
  | .closed => cl.log = l.log

end

namespace HttpConnection

theorem feed_concat (r : Bytes) : ∀ (rs : List Bytes) {c d : HttpConnection},
    feed c rs = .more d → feed c (rs ++ [r]) = d.handleRead (some r) := by
  intro rs
  induction rs with
  | nil =>
      intro c d h
      cases h
      simp only [List.nil_append, feed]
      cases c.handleRead (some r) <;> rfl
  | cons r' rs ih =>
      intro c d h
      simp only [List.cons_append, feed] at h ⊢
      cases hread : c.handleRead (some r') with
      | more c' =>
          rw [hread] at h
          exact ih h
      | parsed c' | closed =>
          rw [hread] at h
          cases h

@[simp] theorem httpRet_setDefault (c : HttpConnection) (key value : Bytes) :
    (c.setDefault key value).httpRet = c.httpRet := by
  unfold setDefault
  split <;> rfl

@[simp] theorem httpRet_defaultBody (c : HttpConnection) :
    c.defaultBody.httpRet = c.httpRet := by
  unfold defaultBody
  split <;> rfl

theorem httpRet_clampRet (c : HttpConnection) :
    c.clampRet.httpRet ≥ 0 ∧ c.clampRet.httpRet < HTTP_END := by
  unfold clampRet
  split
  · exact ⟨show HTTP_503 ≥ 0 by decide, show HTTP_503 < HTTP_END by decide⟩
  · next h => omega

/-- A response is always written. -/
theorem written_beginResponse (c : HttpConnection) :
    ∃ written, c.beginResponse.1 = some written := by
  have hret := c.httpRet_clampRet
  unfold beginResponse
  simp [hret]

/-- A request that is not pushed is answered. -/
theorem written_processRequest {G : Type*} {reqHandler : RequestHandler G} {g : G}
    {c : HttpConnection} (h : (c.processRequest reqHandler g).1 ≠ .pushToThreadpool) :
    ∃ written, (c.processRequest reqHandler g).1 = .respond (some written) ∨
      (c.processRequest reqHandler g).1 = .badHandler (some written) := by
  unfold processRequest at h ⊢
  dsimp only at h ⊢
  split at h
  · next hswitch =>
      split at h
      · next hthreaded =>
          rw [if_pos hswitch, if_pos hthreaded]
          obtain ⟨written, hwritten⟩ := written_beginResponse _
          exact ⟨written, .inr (congrArg Decision.badHandler hwritten)⟩
      · exact absurd rfl h
  · next hswitch =>
      rw [if_neg hswitch]
      obtain ⟨written, hwritten⟩ := written_beginResponse _
      exact ⟨written, .inl (congrArg Decision.respond hwritten)⟩

end HttpConnection

section

variable {G : Type*} {reqHandler : RequestHandler G} {cl : Peer} {l : Lone} {g : G}

theorem answered_handleAt (g g' : G) (c : HttpConnection) :
    AnsweredOnce (handleAt reqHandler g g' c).1 := by
  unfold handleAt
  dsimp only
  by_cases hpush : (c.processRequest reqHandler g).1 = .pushToThreadpool
  · rw [if_pos hpush]
    have hthreaded := HttpConnection.threaded_of_push reqHandler g c hpush
    obtain ⟨written, hwritten⟩ := HttpConnection.written_processRequest
      (HttpConnection.processRequest_of_threaded reqHandler g' _ hthreaded)
    exact ⟨[_], _, written, rfl, by simpa [callOf] using hpush, hwritten⟩
  · rw [if_neg hpush]
    obtain ⟨written, hwritten⟩ := HttpConnection.written_processRequest hpush
    exact ⟨[], _, written, rfl, by simp, hwritten⟩

theorem answered_of_reachable (h : (lone reqHandler).Reachable l) :
    ∀ calls ∈ l.log, AnsweredOnce calls := by
  refine h.invariant (P := fun l => ∀ calls ∈ l.log, AnsweredOnce calls) ?_ ?_
  · intro l hl
    rw [hl.2]
    simp
  · intro l e l' hl hstep
    simp only [lone] at hstep
    split at hstep
    · cases hstep
      intro calls hcalls
      rw [List.mem_append, List.mem_singleton] at hcalls
      rcases hcalls with hcalls | rfl
      · exact hl calls hcalls
      · exact answered_handleAt _ _ _
    · cases hstep

theorem reachable_lone (h : (lone reqHandler).Reachable l) {rs : List Bytes} {c : HttpConnection}
    (hfeed : feed l.conn rs = .parsed c) (g g' : G) :
    (lone reqHandler).Reachable ⟨(handleAt reqHandler g g' c).2.handleWrite,
      l.log ++ [(handleAt reqHandler g g' c).1]⟩ :=
  .step (e := (rs, g, g')) h trivial (by simp [lone, hfeed])

/-- A read that does not end the request. -/
theorem Peer.Follows.more (h : cl.Follows reqHandler l) (hplace : cl.place = .reading)
    {r : Bytes} {c : HttpConnection} (hread : cl.conn.handleRead (some r) = .more c) :
    { cl with reads := cl.reads ++ [r], conn := c }.Follows reqHandler l := by
  simp only [Peer.Follows, hplace] at h ⊢
  exact ⟨h.1, (HttpConnection.feed_concat r _ h.2).trans hread⟩

theorem Peer.Follows.close (h : cl.Follows reqHandler l) (hplace : cl.place = .reading)
    (rs : List Bytes) : { cl with reads := rs, place := .closed }.Follows reqHandler l := by
  simp only [Peer.Follows, hplace] at h ⊢
  exact h.1

/-- A request is complete, and the I/O thread calls the handler. -/
theorem Peer.Follows.parsed (hl : (lone reqHandler).Reachable l) (h : cl.Follows reqHandler l)
    (hplace : cl.place = .reading) {r : Bytes} {c : HttpConnection}
    (hread : cl.conn.handleRead (some r) = .parsed c) (g : G) :
    ∃ l', (lone reqHandler).Reachable l' ∧
      ({ cl with
        reads := cl.reads ++ [r]
        conn := (c.processRequest reqHandler g).2.1
        place := (c.processRequest reqHandler g).1.place }.open
          (callOf reqHandler g c)).Follows reqHandler l' := by
  simp only [Peer.Follows, hplace] at h
  have hfeed := (HttpConnection.feed_concat r _ h.2).trans hread
  by_cases hpush : (c.processRequest reqHandler g).1 = .pushToThreadpool
  · refine ⟨l, hl, ?_⟩
    simp only [Peer.Follows, Peer.open, hpush, Decision.place]
    exact ⟨c, g, hfeed, hpush, rfl, by rw [h.1]⟩
  · refine ⟨_, reachable_lone hl hfeed g g, ?_⟩
    have hwriting : (c.processRequest reqHandler g).1.place = .writing := by
      obtain ⟨written, hwritten | hwritten⟩ := HttpConnection.written_processRequest hpush <;>
        rw [hwritten] <;> rfl
    simp only [Peer.Follows, Peer.open, hwriting, handleAt, if_neg hpush, h.1, and_self]

/-- A worker calls the handler. -/
theorem Peer.Follows.again (hl : (lone reqHandler).Reachable l) (h : cl.Follows reqHandler l)
    (hplace : cl.place = .pooled) (g' : G)
    (hpush : (cl.conn.processRequest reqHandler g').1 ≠ .pushToThreadpool) :
    ∃ l', (lone reqHandler).Reachable l' ∧
      ({ cl with
        conn := (cl.conn.processRequest reqHandler g').2.1
        place := (cl.conn.processRequest reqHandler g').1.place }.again
          (callOf reqHandler g' cl.conn)).Follows reqHandler l' := by
  simp only [Peer.Follows, hplace] at h
  obtain ⟨c, g, hfeed, hfirst, hconn, hlog⟩ := h
  refine ⟨_, reachable_lone hl hfeed g g', ?_⟩
  have hwriting : (cl.conn.processRequest reqHandler g').1.place = .writing := by
    obtain ⟨written, hwritten | hwritten⟩ := HttpConnection.written_processRequest hpush <;>
      rw [hwritten] <;> rfl
  simp only [Peer.Follows, Peer.again, hwriting, handleAt, if_pos hfirst, hconn, hlog,
    List.dropLast_concat, List.getLast?_concat, Option.getD_some, List.singleton_append, and_self]

theorem Peer.Follows.written (h : cl.Follows reqHandler l) (hplace : cl.place = .writing) :
    { cl with conn := cl.conn.handleWrite, place := .reading, reads := [] }.Follows
      reqHandler l := by
  simp only [Peer.Follows, hplace] at h ⊢
  exact ⟨h.1, by rw [h.2]; rfl⟩

end

/-! ## Pushes -/

section

variable {α : Type*}

@[simp] theorem ThreadState.processed_push (th : ThreadState α) (x : Push α) :
    (th.push x).processed = th.processed := by
  unfold ThreadState.push ThreadState.notifyOne
  split <;> rfl

theorem ThreadState.processed_step {th th' : ThreadState α} {e : WorkerEvent}
    (h : th.step e = some th') (he : e ≠ .finish) : th'.processed = th.processed := by
  rcases step_cases h with ⟨-, rfl⟩ | ⟨-, rfl⟩ | ⟨-, x, q, -, rfl⟩ | ⟨x, hpc, -⟩ | ⟨-, rfl⟩ |
    ⟨b, -, rfl⟩ | ⟨-, rfl⟩ | ⟨-, rfl⟩
  case inr.inr.inr.inl => cases e <;> simp [ThreadState.step, hpc] at h he
  all_goals rfl

namespace Pool

variable {p p' : Pool α}

/-- Push number `k` is one of `a`, and no worker has finished it. -/
def Unfinished (p : Pool α) (k : Nat) (a : α) : Prop :=
  p.calls[k]? = some a ∧ ∀ i, k ∉ numbers (p.threads i).processed

theorem unfinished_congr (hcalls : p'.calls = p.calls)
    (hprocessed : ∀ i, (p'.threads i).processed = (p.threads i).processed) (k : Nat) (a : α) :
    p'.Unfinished k a ↔ p.Unfinished k a := by
  simp only [Unfinished, hcalls, hprocessed]

/-- The steps that touch no connection finish nothing. -/
theorem unfinished_own (hinv : Inv p) {e : PoolEvent α} (h : p.step e = some p')
    (hown : e.own = true) (k : Nat) (a : α) : p'.Unfinished k a ↔ p.Unfinished k a := by
  have hset : ∀ {i : Nat} {th : ThreadState α}, th.processed = (p.threads i).processed →
      ∀ j, (Function.update p.threads i th j).processed = (p.threads j).processed := by
    intro i th hth j
    by_cases hj : j = i
    · rw [hj, Function.update_self, hth]
    · rw [Function.update_of_ne hj]
  rcases step_cases hinv h with ⟨conn, rfl, -, -⟩ | ⟨io, -, -, -, rfl⟩ | ⟨x, -, -, rfl⟩ |
    ⟨x, i, -, -, -, rfl⟩ | ⟨i, we, th, rfl, -, hth, rfl⟩
  · cases hown
  all_goals refine unfinished_congr (by rfl) (fun j => ?_) k a
  · rfl
  · exact hset (by rfl) j
  · exact hset (ThreadState.processed_push _ x) j
  · refine hset (ThreadState.processed_step hth ?_) j
    rintro rfl
    cases hown

/-- A number that has not been given to a push is with no worker. -/
theorem Inv.not_processed (hinv : Inv p) {k : Nat} (hk : p.calls.length ≤ k) (i : Nat) :
    k ∉ numbers (p.threads i).processed := by
  have hnone := hinv.accounted.not_mem_of_length_le hk i
  simp only [(hinv.workers i).account, numbers_append, List.mem_append, not_or] at hnone
  exact hnone.1.1

theorem unfinished_call (hinv : Inv p) (hio : p.io = .idle) (a : α) :
    ∃ p', p.step (.call a) = some p' ∧
      ∀ k b, p'.Unfinished k b ↔ p.Unfinished k b ∨ k = p.calls.length ∧ b = a := by
  refine ⟨_, by simp only [Pool.step, hio]; rfl, fun k b => ?_⟩
  simp only [Unfinished]
  rcases lt_trichotomy k p.calls.length with hk | rfl | hk
  · rw [List.getElem?_append_left hk]
    simp [hk.ne]
  · simp [hinv.not_processed le_rfl, eq_comm]
  · rw [List.getElem?_eq_none (by simpa using hk), List.getElem?_eq_none hk.le]
    simp [hk.ne']

theorem unfinished_finish (h : p.Orderly) {i : Nat} {x : Push α}
    (hpc : (p.threads i).pc = .process x) : p.Unfinished x.1 x.2 ∧
    ∃ p', p.step (.worker i .finish) = some p' ∧
      ∀ k b, p'.Unfinished k b ↔ p.Unfinished k b ∧ k ≠ x.1 := by
  have ht : (p.threads i).t = true := by
    rw [h.inv.created]
    by_contra hi
    rw [h.fresh i (by omega)] at hpc
    cases hpc
  have haccount := (h.inv.workers i).account
  rw [hpc] at haccount
  have hmem : x ∈ (p.threads i).received := by simp [haccount, WorkerPc.inHand]
  have hissued := h.inv.accounted.genuine i x hmem
  have hcarried : ∀ y ∈ p.io.carried, y.1 ≠ x.1 := fun y hy hyx =>
    h.inv.accounted.carried_nowhere y hy i (hyx ▸ List.mem_map_of_mem hmem)
  obtain ⟨i', -, -, hcount⟩ := h.inv.accounted.delivered x.1 x.2 hissued hcarried
  -- the number is in the account of worker `i` once, and that is the one in its hand
  have hnone : ∀ j, x.1 ∉ numbers (p.threads j).processed := by
    intro j
    have hi := hcount i
    have hj := hcount j
    simp only [haccount, WorkerPc.inHand, numbers_append, numbers_cons, numbers_nil,
      List.count_append, List.count_cons_self] at hi
    simp only [(h.inv.workers j).account, numbers_append, List.count_append] at hj
    rw [← List.count_eq_zero]
    split at hi
    · next hii =>
        subst hii
        split at hj
        · next hji =>
            subst hji
            omega
        · omega
    · omega
  refine ⟨⟨hissued, hnone⟩, p.setThread i { p.threads i with
    pc := .test
    processed := (p.threads i).processed ++ [x] },
    by simp only [Pool.step, ht, if_true, ThreadState.step, hpc, Option.map_some], fun k b => ?_⟩
  have hset : ∀ j, k ∉ numbers ((p.setThread i { p.threads i with
      pc := .test
      processed := (p.threads i).processed ++ [x] }).threads j).processed ↔
      k ∉ numbers (p.threads j).processed ∧ (j = i → k ≠ x.1) := by
    intro j
    by_cases hj : j = i
    · subst hj
      simp [setThread]
    · simp [setThread, hj]
  simp only [Unfinished, hset, forall_and, forall_eq, and_assoc]
  rfl

end Pool

end

/-! ## The server -/

namespace HttpServer

variable {G : Type*} {reqHandler : RequestHandler G} {s s' : HttpServer G}

/-- A connection is in the pool exactly if a push of it is unfinished, and
then there is one such push. -/
structure Inv (reqHandler : RequestHandler G) (s : HttpServer G) : Prop where
  pool : s.pool.Orderly
  follows : ∀ cl ∈ s.conns, ∃ l, (lone reqHandler).Reachable l ∧ cl.Follows reqHandler l
  pooled : ∀ t, (∃ cl, s.conns[t]? = some cl ∧ cl.place = .pooled) ↔ ∃ k, s.pool.Unfinished k t
  once : ∀ k k' t, s.pool.Unfinished k t → s.pool.Unfinished k' t → k = k'

/-- A connection in the pool is marked. -/
theorem Follows.threaded {cl : Peer} {l : Lone} (h : cl.Follows reqHandler l)
    (hplace : cl.place = .pooled) : cl.conn.threaded = true := by
  simp only [Peer.Follows, hplace] at h
  obtain ⟨c, g, -, hpush, hconn, -⟩ := h
  exact hconn ▸ HttpConnection.threaded_of_push reqHandler g c hpush

theorem Inv.of_initial (h : Initial s) : Inv reqHandler s := by
  obtain ⟨hpool, hconns⟩ := h
  refine ⟨hpool ▸ Pool.orderly_initial, by simp [hconns], fun t => ?_, fun k k' t hk => ?_⟩
  · simp [hconns, hpool, Pool.Unfinished, Pool.initial]
  · simp [hpool, Pool.Unfinished, Pool.initial] at hk

/-- A connection goes on, and the pool knows. -/
theorem Inv.set (h : Inv reqHandler s) {t : Nat} {cl cl' : Peer} (hcl : s.conns[t]? = some cl)
    (hfollows : ∃ l, (lone reqHandler).Reachable l ∧ cl'.Follows reqHandler l)
    {pool : Pool Nat} (hpool : pool.Orderly)
    (hothers : ∀ k u, u ≠ t → (pool.Unfinished k u ↔ s.pool.Unfinished k u))
    (hpooled : cl'.place = .pooled ↔ ∃ k, pool.Unfinished k t)
    (honce : ∀ k k', pool.Unfinished k t → pool.Unfinished k' t → k = k') (g : G) :
    Inv reqHandler ⟨pool, s.conns.set t cl', g⟩ := by
  have hlt : t < s.conns.length := (List.getElem?_eq_some_iff.mp hcl).1
  refine ⟨hpool, fun cl'' hmem => ?_, fun u => ?_, fun k k' u hk hk' => ?_⟩
  · rcases List.mem_or_eq_of_mem_set hmem with hmem | rfl
    · exact h.follows cl'' hmem
    · exact hfollows
  · by_cases hu : u = t
    · subst hu
      simp only [List.getElem?_set_self hlt, Option.some.injEq, exists_eq_left', hpooled]
    · simp only [List.getElem?_set_ne (Ne.symm hu), hothers _ u hu]
      exact h.pooled u
  · by_cases hu : u = t
    · subst hu
      exact honce k k' hk hk'
    · exact h.once k k' u ((hothers k u hu).mp hk) ((hothers k' u hu).mp hk')

/-- A connection goes on outside of the pool. -/
theorem Inv.setOutside (h : Inv reqHandler s) {t : Nat} {cl cl' : Peer}
    (hcl : s.conns[t]? = some cl) (hplace : cl.place ≠ .pooled) (hplace' : cl'.place ≠ .pooled)
    (hfollows : ∃ l, (lone reqHandler).Reachable l ∧ cl'.Follows reqHandler l) (g : G) :
    Inv reqHandler { s with conns := s.conns.set t cl', g := g } := by
  have hnone : ¬ ∃ k, s.pool.Unfinished k t := by
    rw [← h.pooled t, hcl]
    simpa using hplace
  exact h.set hcl hfollows h.pool (fun _ _ _ => .rfl) (iff_of_false hplace' hnone)
    (fun k k' hk => h.once k k' t hk) g

theorem Inv.accept (h : Inv reqHandler s) (state : State) (type : RequestType) (httpRet : Int)
    (postsize : Nat) : Inv reqHandler { s with
      conns := s.conns ++ [⟨(HttpConnection.new state type httpRet postsize).start, .reading,
        [], []⟩] } := by
  refine ⟨h.pool, fun cl hmem => ?_, fun t => ?_, h.once⟩
  · rw [List.mem_append, List.mem_singleton] at hmem
    rcases hmem with hmem | rfl
    · exact h.follows cl hmem
    · exact ⟨⟨(HttpConnection.new state type httpRet postsize).start, []⟩,
        .init ⟨⟨_, _, _, _, rfl⟩, rfl⟩, rfl, rfl⟩
  · rw [← h.pooled t]
    rcases lt_trichotomy t s.conns.length with ht | rfl | ht
    · rw [List.getElem?_append_left ht]
    · simp
    · rw [List.getElem?_eq_none (by simpa using ht), List.getElem?_eq_none ht.le]

/-- The I/O thread handles a request. -/
theorem Inv.process (h : Inv reqHandler s) (hio : s.pool.io = .idle) {t : Nat} {cl : Peer}
    (hcl : s.conns[t]? = some cl) (hplace : cl.place = .reading) {r : Bytes} {c : HttpConnection}
    (hread : cl.conn.handleRead (some r) = .parsed c)
    (hstep : s.process reqHandler t { cl with reads := cl.reads ++ [r], conn := c } = some s') :
    Inv reqHandler s' := by
  obtain ⟨l, hl, hfollows⟩ := h.follows cl (List.mem_of_getElem? hcl)
  have hnext := hfollows.parsed hl hplace hread s.g
  have hout : cl.place ≠ .pooled := by simp [hplace]
  simp only [HttpServer.process] at hstep
  by_cases hpush : (c.processRequest reqHandler s.g).1 = .pushToThreadpool
  · obtain ⟨pool, hcall, hunfinished⟩ := Pool.unfinished_call h.pool.inv hio t
    simp only [if_pos hpush, hcall, Option.map_some, Option.some.injEq] at hstep
    subst hstep
    have hnone : ¬ ∃ k, s.pool.Unfinished k t := by
      rw [← h.pooled t, hcl]
      simpa using hout
    refine h.set hcl hnext (h.pool.step hcall) (fun k u hu => ?_) ?_ (fun k k' hk hk' => ?_) _
    · simp [hunfinished, hu]
    · simp [hunfinished, Peer.open, hpush, Decision.place]
    · rw [hunfinished] at hk hk'
      rcases hk with hk | hk
      · exact absurd ⟨k, hk⟩ hnone
      · rcases hk' with hk' | hk'
        · exact absurd ⟨k', hk'⟩ hnone
        · exact hk.1.trans hk'.1.symm
  · simp only [if_neg hpush, Option.some.injEq] at hstep
    subst hstep
    refine h.setOutside hcl hout ?_ hnext _
    obtain ⟨written, hwritten | hwritten⟩ := HttpConnection.written_processRequest hpush <;>
      simp [Peer.open, hwritten, Decision.place]

/-- A worker returns from `process_request`. -/
theorem Inv.finish (h : Inv reqHandler s) {i : Nat} {x : Push Nat}
    (hpc : (s.pool.threads i).pc = .process x) :
    ∃ s', s.step reqHandler (.finish i) = some s' ∧ Inv reqHandler s' := by
  obtain ⟨hx, pool, hstep, hunfinished⟩ := Pool.unfinished_finish h.pool hpc
  obtain ⟨cl, hcl, hplace⟩ := (h.pooled x.2).mpr ⟨x.1, hx⟩
  obtain ⟨l, hl, hfollows⟩ := h.follows cl (List.mem_of_getElem? hcl)
  have hpush := HttpConnection.processRequest_of_threaded reqHandler s.g cl.conn
    (Follows.threaded hfollows hplace)
  have hout : (cl.conn.processRequest reqHandler s.g).1.place ≠ .pooled := by
    obtain ⟨written, hwritten | hwritten⟩ := HttpConnection.written_processRequest hpush <;>
      simp [hwritten, Decision.place]
  have hnone : ¬ ∃ k, pool.Unfinished k x.2 := by
    rintro ⟨k, hk⟩
    obtain ⟨hk, hne⟩ := (hunfinished k x.2).mp hk
    exact hne (h.once _ _ _ hk hx)
  have hothers : ∀ k u, u ≠ x.2 → (pool.Unfinished k u ↔ s.pool.Unfinished k u) := by
    intro k u hu
    rw [hunfinished, and_iff_left_iff_imp]
    rintro hk rfl
    exact hu (Option.some.inj (hk.1.symm.trans hx.1))
  exact ⟨_, by simp only [HttpServer.step, hpc, hcl, Option.bind_some, if_neg hpush, hstep,
    Option.map_some]; rfl, h.set hcl (hfollows.again hl hplace s.g hpush) (h.pool.step hstep)
      hothers (iff_of_false hout hnone) (fun k _ hk => absurd ⟨k, hk⟩ hnone) _⟩

/-- Every step keeps the invariant. -/
theorem Inv.step (h : Inv reqHandler s) {e : ServerEvent}
    (hstep : s.step reqHandler e = some s') : Inv reqHandler s' := by
  cases e with
  | accept state type httpRet postsize =>
      simp only [HttpServer.step] at hstep
      split at hstep
      · cases hstep
        exact h.accept state type httpRet postsize
      · cases hstep
  | read t buffer =>
      simp only [HttpServer.step] at hstep
      split at hstep
      · next cl hio hcl =>
          split at hstep
          · next hplace =>
              obtain ⟨l, hl, hfollows⟩ := h.follows cl (List.mem_of_getElem? hcl)
              have hout : cl.place ≠ .pooled := by simp [hplace]
              cases buffer with
              | none =>
                  cases hstep
                  exact h.setOutside hcl hout (by simp) ⟨l, hl, hfollows.close hplace _⟩ _
              | some r =>
                  cases hread : cl.conn.handleRead (some r) with
                  | more c =>
                      simp only [hread, Option.some.injEq] at hstep
                      subst hstep
                      refine h.setOutside hcl hout ?_ ⟨l, hl, hfollows.more hplace hread⟩ _
                      exact hout
                  | parsed c =>
                      simp only [hread] at hstep
                      exact h.process hio hcl hplace hread hstep
                  | closed =>
                      simp only [hread, Option.some.injEq] at hstep
                      subst hstep
                      exact h.setOutside hcl hout (by simp) ⟨l, hl, hfollows.close hplace _⟩ _
          · cases hstep
      · cases hstep
  | written t =>
      simp only [HttpServer.step] at hstep
      split at hstep
      · next cl hio hcl =>
          split at hstep
          · next hplace =>
              cases hstep
              obtain ⟨l, hl, hfollows⟩ := h.follows cl (List.mem_of_getElem? hcl)
              exact h.setOutside hcl (by simp [hplace]) (by simp)
                ⟨l, hl, hfollows.written hplace⟩ _
          · cases hstep
      · cases hstep
  | finish i =>
      cases hpc : (s.pool.threads i).pc with
      | process x =>
          obtain ⟨s'', hs'', hinv⟩ := h.finish hpc
          rw [hs'', Option.some.injEq] at hstep
          exact hstep ▸ hinv
      | _ => simp [HttpServer.step, hpc] at hstep
  | thread e =>
      simp only [HttpServer.step] at hstep
      split at hstep
      · next hown =>
          obtain ⟨pool, hpool, rfl⟩ := Option.map_eq_some_iff.mp hstep
          have hunfinished := Pool.unfinished_own h.pool.inv hpool hown
          refine ⟨h.pool.step hpool, h.follows, fun t => ?_, fun k k' t hk hk' => ?_⟩
          · simp only [hunfinished]
            exact h.pooled t
          · exact h.once k k' t ((hunfinished k t).mp hk) ((hunfinished k' t).mp hk')
      · cases hstep

theorem inv_of_reachable (h : (system reqHandler).Reachable s) : Inv reqHandler s :=
  h.invariant (P := Inv reqHandler) (fun _ h0 => .of_initial h0) fun _ _ _ hs hstep => hs.step hstep

/-! ## Rest -/

/-- What comes from clients, and spurious wake-ups. -/
def fromOutside (s : HttpServer G) : ServerEvent → Bool
  | .accept .. | .read .. => true
  | .thread e => s.pool.spurious e
  | .written _ | .finish _ => false

/-- The responses that are being written are work, too. -/
def work (s : HttpServer G) : Nat :=
  2 * s.pool.work + s.conns.countP fun cl => cl.place = .writing

/-- Nothing comes in, and there is less and less work. -/
theorem Inv.work_lt (h : Inv reqHandler s) {e : ServerEvent}
    (hstep : s.step reqHandler e = some s') (hinside : s.fromOutside e = false) :
    s'.work < s.work ∧ s'.conns.length = s.conns.length := by
  cases e with
  | accept | read => cases hinside
  | written t =>
      simp only [HttpServer.step] at hstep
      split at hstep
      · next cl hio hcl =>
          split at hstep
          · next hplace =>
              cases hstep
              obtain ⟨hlt, hget⟩ := List.getElem?_eq_some_iff.mp hcl
              have hpos : 0 < s.conns.countP fun cl => cl.place = .writing :=
                List.countP_pos_iff.mpr ⟨cl, List.mem_of_getElem? hcl, by simpa using hplace⟩
              refine ⟨?_, List.length_set ..⟩
              rw [work, work, List.countP_set hlt, hget, if_pos (by simpa using hplace),
                if_neg (by simp)]
              dsimp only
              omega
          · cases hstep
      · cases hstep
  | finish i =>
      cases hpc : (s.pool.threads i).pc with
      | process x =>
          simp only [HttpServer.step, hpc] at hstep
          obtain ⟨cl, hcl, hstep⟩ := Option.bind_eq_some_iff.mp hstep
          split at hstep
          · cases hstep
          · obtain ⟨pool, hpool, rfl⟩ := Option.map_eq_some_iff.mp hstep
            have hless := (h.pool.work_lt hpool (by simp [Pool.fromOutside, Pool.spurious, hpc,
              WorkerPc.waits])).1
            have hlt : x.2 < s.conns.length := (List.getElem?_eq_some_iff.mp hcl).1
            simp only [work, List.countP_set hlt, List.length_set, and_true]
            split <;> split <;> omega
      | _ => simp [HttpServer.step, hpc] at hstep
  | thread e =>
      simp only [HttpServer.step] at hstep
      split at hstep
      · next hown =>
          obtain ⟨pool, hpool, rfl⟩ := Option.map_eq_some_iff.mp hstep
          have hpoolInside : s.pool.fromOutside e = false := by
            cases e with
            | call => cases hown
            | scan | readI | readChoice | compare | decide | create | push | worker => exact hinside
          have hless := (h.pool.work_lt hpool hpoolInside).1
          simp only [work, and_true]
          omega
      · cases hstep

/-- At rest each connection waits for its client, or is closed. -/
theorem Inv.at_rest (h : Inv reqHandler s) (hrest : (system reqHandler).Rests fromOutside s) :
    ∀ cl ∈ s.conns, cl.place = .reading ∨ cl.place = .closed := by
  have hpool : (Pool.system Nat).Rests Pool.fromOutside s.pool := by
    intro e pool he
    replace he : s.pool.step e = some pool := he
    by_cases hown : e.own = true
    · have hthread : s.step reqHandler (.thread e) = some { s with pool := pool } := by
        rw [HttpServer.step, if_pos hown, he, Option.map_some]
      have hspurious : s.pool.spurious e = true := hrest (.thread e) _ hthread
      cases e with
      | call => rfl
      | scan | readI | readChoice | compare | decide | create | push | worker => exact hspurious
    · cases e with
      | call => rfl
      | worker i we =>
          have hfinish : we = .finish := by cases we <;> simp [PoolEvent.own] at hown ⊢
          subst hfinish
          have hpc : ∃ x, (s.pool.threads i).pc = .process x := by
            simp only [Pool.step, ThreadState.step] at he
            cases hpc : (s.pool.threads i).pc <;> simp [hpc] at he ⊢
          obtain ⟨x, hpc⟩ := hpc
          obtain ⟨s', hs', -⟩ := h.finish hpc
          cases hrest (.finish i) s' hs'
      | scan | readI | readChoice | compare | decide | create | push => exact absurd rfl hown
  have hfinished := h.pool.finished hpool
  intro cl hmem
  obtain ⟨t, hcl⟩ := List.mem_iff_getElem?.mp hmem
  cases hplace : cl.place with
  | reading => exact .inl rfl
  | closed => exact .inr rfl
  | pooled =>
      obtain ⟨k, hk, hnone⟩ := (h.pooled t).mp ⟨cl, hcl, hplace⟩
      obtain ⟨i, hdone, -⟩ := hfinished.processed k t hk
      exact absurd (List.mem_map_of_mem hdone) (hnone i)
  | writing =>
      have hstep : ∃ s', s.step reqHandler (.written t) = some s' := by
        simp [HttpServer.step, hfinished.idle, hcl, hplace]
      obtain ⟨s', hs'⟩ := hstep
      cases hrest (.written t) s' hs'

/-- In every interleaving of what happens on the sockets with the steps of
the threads:

* what a connection has seen and answered is part of a run of this
  connection alone, in which each request is answered once;
* a connection is in the pool exactly if it has been pushed and not yet
  processed, and it was pushed once;
* left alone, the server gets to a state in which each connection waits for
  its client or is closed; and it is in such a state whenever nothing is
  possible but an accept, a read or a spurious wake-up. -/
theorem connections_alone (h : (system reqHandler).Reachable s) :
    (∀ cl ∈ s.conns, ∃ l, (lone reqHandler).Reachable l ∧ cl.Follows reqHandler l ∧
      ∀ calls ∈ l.log, AnsweredOnce calls) ∧
    (∀ t, (∃ cl, s.conns[t]? = some cl ∧ cl.place = .pooled) ↔ ∃ k, s.pool.Unfinished k t) ∧
    (∀ k k' t, s.pool.Unfinished k t → s.pool.Unfinished k' t → k = k') ∧
    (∃ es s', ((system reqHandler).alone fromOutside).run s es = some s' ∧
      s'.conns.length = s.conns.length ∧
      ∀ cl ∈ s'.conns, cl.place = .reading ∨ cl.place = .closed) ∧
    ((system reqHandler).Rests fromOutside s →
      ∀ cl ∈ s.conns, cl.place = .reading ∨ cl.place = .closed) := by
  have hinv := inv_of_reachable h
  refine ⟨fun cl hcl => ?_, hinv.pooled, hinv.once, ?_, hinv.at_rest⟩
  · obtain ⟨l, hl, hfollows⟩ := hinv.follows cl hcl
    exact ⟨l, hl, hfollows, answered_of_reachable hl⟩
  · obtain ⟨es, s', hrun, ⟨hs', hlen⟩, hrest⟩ : ∃ es s',
        ((system reqHandler).alone fromOutside).run s es = some s' ∧
          (Inv reqHandler s' ∧ s'.conns.length = s.conns.length) ∧
          (system reqHandler).Rests fromOutside s' :=
      System.exists_rest work
        (fun _ _ _ hs hstep hinside =>
          ⟨hs.1.step hstep, (hs.1.work_lt hstep hinside).2.trans hs.2⟩)
        (fun _ _ _ hs hstep hinside => (hs.1.work_lt hstep hinside).1) ⟨hinv, rfl⟩
    exact ⟨es, s', hrun, hlen, hs'.at_rest hrest⟩

/-- Two clients; the request of the first one is pushed, and the second one
sends its request in between. -/
def twoClients : List ServerEvent :=
  [.accept .kProcessing .HTTP_INVALID 0 0, .accept .kProcessing .HTTP_INVALID 0 0,
    .read 0 (some (ascii "GET / HTTP/1.1\r\n\r\n")), .thread .scan, .thread .decide,
    .thread .create, .thread .push, .read 1 (some (ascii "GET /")), .thread (.worker 0 .lock),
    .thread (.worker 0 .test), .thread (.worker 0 .take), .finish 0, .written 0]

theorem connections_alone_two : ∃ s : HttpServer Unit,
    (system HttpConnection.poolHandler).run ⟨.initial, [], ()⟩ twoClients = some s ∧
    s.conns.map (fun cl => (cl.place, cl.log.map List.length))
      = [(.reading, [2]), (.reading, [])] ∧
    ∀ cl ∈ s.conns, ∃ l, (lone HttpConnection.poolHandler).Reachable l ∧
      cl.Follows HttpConnection.poolHandler l ∧ ∀ calls ∈ l.log, AnsweredOnce calls := by
  have hrun : ((system HttpConnection.poolHandler).run ⟨.initial, [], ()⟩ twoClients).map
      (fun s => s.conns.map fun cl => (cl.place, cl.log.map List.length))
        = some [(.reading, [2]), (.reading, [])] := by decide +kernel
  obtain ⟨s, hs, hconns⟩ := Option.map_eq_some_iff.mp hrun
  have hreach : (system HttpConnection.poolHandler).Reachable s :=
    System.reachable_of_run twoClients (.init ⟨rfl, rfl⟩) hs
  exact ⟨s, hs, hconns, (connections_alone hreach).1⟩

end HttpServer

end VideoMatch.Browse
