/-
VideoMatch.Browse.IsolationTheorems — what a request on a connection sees of
the requests before it.

The system is one connection with its handler. An event is a request, cut
into reads: it is parsed, handled on the I/O thread and, if it was pushed,
once more by a worker, answered, and `handle_write` resets the connection.

Two connections that the handler cannot tell apart and that have the same
headers and body are `Alike`, and stay so (`Alike.processRequest`). After
any number of requests the connection differs from a fresh one only in
`threaded`, which the reset leaves set once a request has been pushed
(`reset_of_reachable`). The handler can read it, so a request is isolated
exactly if none was pushed before it (`isolated_iff`).
-/
import VideoMatch.Browse.ParseTheorems
import VideoMatch.Browse.ThreadPoolTheorems

namespace VideoMatch.Browse

open VideoMatch.Cxx VideoMatch.Machine

namespace HttpConnection

/-! ## The system -/

/-- A call of the handler: what it could read, the response headers at that
time, and what `process_request` decided. -/
structure Call where
  view : View
  headers : StdMap Bytes Bytes
  decision : Decision

/-- A parsed request is handled, by a worker too if it was pushed. -/
def handle {G : Type*} (reqHandler : RequestHandler G) (g : G) (c : HttpConnection) :
    List Call × HttpConnection × G :=
  let first := c.processRequest reqHandler g
  if first.1 = .pushToThreadpool then
    let second := first.2.1.processRequest reqHandler first.2.2
    ([⟨c.view, c.headers, first.1⟩, ⟨first.2.1.view, first.2.1.headers, second.1⟩], second.2)
  else ([⟨c.view, c.headers, first.1⟩], first.2)

/-- The calls for a request that comes in these reads, if it is parsed. -/
def exchange {G : Type*} (reqHandler : RequestHandler G) (g : G) (c : HttpConnection)
    (rs : List Bytes) : Option (List Call × HttpConnection × G) :=
  match feed c rs with
  | .parsed c => some (c.handle reqHandler g)
  | _ => none

/-- A connection, the state of its handler and the calls so far. -/
structure Connection (G : Type*) where
  conn : HttpConnection
  g : G
  log : List Call

/-- One request after the other. -/
def connection {G : Type*} (reqHandler : RequestHandler G) :
    System (Connection G) (List Bytes) where
  init s := (∃ state type httpRet postsize, s.conn = (new state type httpRet postsize).start) ∧
    s.log = []
  step s rs := (s.conn.exchange reqHandler s.g rs).map fun r =>
    ⟨r.2.1.handleWrite, r.2.2, s.log ++ r.1⟩

/-! ## Alike connections -/

/-- The connections look the same to a handler and to `begin_response`. -/
structure Alike (c d : HttpConnection) : Prop where
  view : c.view = d.view
  headers : c.headers = d.headers
  body : c.body = d.body

section

variable {c d : HttpConnection}

theorem Alike.setHeader (h : Alike c d) (key value : Bytes) :
    Alike (c.setHeader key value) (d.setHeader key value) :=
  ⟨h.view, by simp [HttpConnection.setHeader, h.headers], h.body⟩

theorem Alike.setBody (h : Alike c d) (body : Bytes) : Alike (c.setBody body) (d.setBody body) :=
  ⟨h.view, h.headers, rfl⟩

theorem Alike.setRet (h : Alike c d) (ret ret' : Int) :
    Alike { c with httpRet := ret } { d with httpRet := ret' } :=
  ⟨h.view, h.headers, h.body⟩

theorem Alike.apply (h : Alike c d) (ch : Change) : Alike (c.apply ch) (d.apply ch) := by
  cases ch with
  | setHeader key value => exact h.setHeader key value
  | setBody body => exact h.setBody body

theorem Alike.foldl_apply : ∀ (changes : List Change) {c d : HttpConnection}, Alike c d →
    Alike (changes.foldl HttpConnection.apply c) (changes.foldl HttpConnection.apply d) := by
  intro changes
  induction changes with
  | nil => intro c d h; exact h
  | cons ch changes ih => intro c d h; exact ih (h.apply ch)

/-- Alike, with the same return value. -/
def AlikeRet (c d : HttpConnection) : Prop := Alike c d ∧ c.httpRet = d.httpRet

theorem AlikeRet.clampRet (h : AlikeRet c d) : AlikeRet c.clampRet d.clampRet := by
  obtain ⟨h, hret⟩ := h
  unfold HttpConnection.clampRet
  rw [hret]
  split
  · exact ⟨h.setRet _ _, rfl⟩
  · exact ⟨h, hret⟩

theorem AlikeRet.defaultBody (h : AlikeRet c d) : AlikeRet c.defaultBody d.defaultBody := by
  obtain ⟨h, hret⟩ := h
  unfold HttpConnection.defaultBody
  rw [hret, h.body]
  split
  · exact ⟨(h.setBody _).setHeader _ _, hret⟩
  · exact ⟨h, hret⟩

theorem AlikeRet.setDefault (h : AlikeRet c d) (key value : Bytes) :
    AlikeRet (c.setDefault key value) (d.setDefault key value) := by
  obtain ⟨h, hret⟩ := h
  unfold HttpConnection.setDefault
  rw [h.headers]
  split
  · exact ⟨h.setHeader _ _, hret⟩
  · exact ⟨h, hret⟩

theorem AlikeRet.response_eq (h : AlikeRet c d) : c.response = d.response := by
  obtain ⟨h, hret⟩ := h
  simp only [response, bytesOut, h.headers, h.body, hret]

theorem AlikeRet.beginResponse (h : AlikeRet c d) :
    c.beginResponse.1 = d.beginResponse.1 ∧ Alike c.beginResponse.2 d.beginResponse.2 := by
  have hbody := h.clampRet.defaultBody
  have hlast := ((hbody.setDefault (ascii "Content-Length")
    (longValue c.clampRet.defaultBody.body.length)).setDefault (ascii "Server")
    (ascii "SimpleWebSvr/1.0")).setDefault (ascii "Connection") (ascii "Keep-Alive")
  unfold HttpConnection.beginResponse
  dsimp only
  rw [← hbody.1.body, ← hlast.2, ← hlast.response_eq]
  split
  · exact ⟨rfl, hlast.1⟩
  · exact ⟨rfl, hlast.1⟩

/-- The handler and `process_request` do the same with alike connections. -/
theorem Alike.processRequest {G : Type*} (reqHandler : RequestHandler G) (g : G)
    (h : Alike c d) :
    (c.processRequest reqHandler g).1 = (d.processRequest reqHandler g).1 ∧
      Alike (c.processRequest reqHandler g).2.1 (d.processRequest reqHandler g).2.1 ∧
      (c.processRequest reqHandler g).2.2 = (d.processRequest reqHandler g).2.2 := by
  unfold HttpConnection.processRequest
  rw [h.view]
  obtain ⟨ret, changes, g'⟩ := reqHandler g d.view
  have hchanged := h.foldl_apply changes
  dsimp only
  generalize changes.foldl HttpConnection.apply c = c' at hchanged ⊢
  generalize changes.foldl HttpConnection.apply d = d' at hchanged ⊢
  have hthreaded : c'.threaded = d'.threaded := congrArg View.inThreadpool hchanged.view
  by_cases hswitch : ret = HTTP_SWITCH_THREAD
  · simp only [if_pos hswitch]
    by_cases hd : d'.threaded = true
    · have hret : AlikeRet ({ c' with httpRet := HTTP_508 }.setBody [])
          ({ d' with httpRet := HTTP_508 }.setBody []) := ⟨(hchanged.setRet _ _).setBody _, rfl⟩
      simp only [if_pos hd, if_pos (hthreaded.trans hd)]
      exact ⟨congrArg Decision.badHandler hret.beginResponse.1, hret.beginResponse.2, trivial⟩
    · have hc : ¬ c'.threaded = true := by rwa [hthreaded]
      have hview := hchanged.view
      simp only [HttpConnection.view, View.mk.injEq] at hview
      simp only [if_neg hd, if_neg hc]
      exact ⟨trivial, ⟨by simp [HttpConnection.view, hview], hchanged.headers, hchanged.body⟩,
        trivial⟩
  · have hret : AlikeRet { c' with httpRet := ret } { d' with httpRet := ret } :=
      ⟨hchanged.setRet _ _, rfl⟩
    simp only [if_neg hswitch]
    exact ⟨congrArg Decision.respond hret.beginResponse.1, hret.beginResponse.2, trivial⟩

/-- So the calls are the same. -/
theorem Alike.handle {G : Type*} (reqHandler : RequestHandler G) (g : G) (h : Alike c d) :
    (c.handle reqHandler g).1 = (d.handle reqHandler g).1 := by
  obtain ⟨hdecision, halike, hg⟩ := h.processRequest reqHandler g
  have hsecond := (halike.processRequest reqHandler (d.processRequest reqHandler g).2.2).1
  simp only [HttpConnection.handle, hdecision, hg]
  split
  · simp only [h.view, h.headers, halike.view, halike.headers, hsecond]
  · simp only [h.view, h.headers]

end

/-! ## What parsing leaves alone -/

section

variable {c : HttpConnection}

/-- The members that the parser does not touch. -/
def Untouched (c d : HttpConnection) : Prop :=
  d.threaded = c.threaded ∧ d.headers = c.headers ∧ d.body = c.body

theorem untouched_parseLength (c : HttpConnection) : Untouched c c.parseLength.2 := by
  rw [parseLength_eq]
  split
  · exact ⟨rfl, rfl, rfl⟩
  · dsimp only
    split <;> exact ⟨rfl, rfl, rfl⟩

theorem untouched_parsePath (c : HttpConnection) (p : Nat) : Untouched c (c.parsePath p).2 := by
  unfold parsePath
  split
  · exact ⟨rfl, rfl, rfl⟩
  · dsimp only
    split
    · exact untouched_parseLength _
    · exact ⟨rfl, rfl, rfl⟩

theorem untouched_tryParseRequest (c : HttpConnection) (r : Bytes) :
    Untouched c (c.tryParseRequest r).2 := by
  unfold tryParseRequest
  split
  · dsimp only
    split
    · split
      · exact untouched_parsePath _ _
      · split
        · exact untouched_parsePath _ _
        · exact ⟨rfl, rfl, rfl⟩
    · split <;> exact ⟨rfl, rfl, rfl⟩
  · split
    · dsimp only
      split <;> exact ⟨rfl, rfl, rfl⟩
    · exact ⟨rfl, rfl, rfl⟩

/-- The same of a connection that goes on reading or is done. -/
theorem untouched_goOn {c d : HttpConnection} {ret : Int} (h : Untouched c d) {e : HttpConnection}
    (he : goOn (ret, d) = .parsed e ∨ goOn (ret, d) = .more e) : Untouched c e := by
  simp only [goOn] at he
  by_cases hzero : ret = 0
  · simp only [if_pos hzero, Reading.parsed.injEq, reduceCtorEq, or_false] at he
    rw [← he]
    exact h
  · by_cases hpos : ret > 0
    · simp only [if_neg hzero, if_pos hpos, Reading.more.injEq, reduceCtorEq, false_or] at he
      rw [← he]
      exact h
    · simp [hzero, hpos] at he

theorem untouched_feed : ∀ (rs : List Bytes) {c d : HttpConnection}, feed c rs = .parsed d →
    Untouched c d := by
  intro rs
  induction rs with
  | nil => intro c d h; cases h
  | cons r rs ih =>
      intro c d h
      have hread := untouched_tryParseRequest c r
      rw [feed] at h
      cases hc : c.handleRead (some r) with
      | parsed c' =>
          rw [hc] at h
          cases h
          exact untouched_goOn hread (.inl hc)
      | more c' =>
          rw [hc] at h
          obtain ⟨h₁, h₂, h₃⟩ := untouched_goOn hread (.inr hc)
          obtain ⟨h₁', h₂', h₃'⟩ := ih h
          exact ⟨h₁'.trans h₁, h₂'.trans h₂, h₃'.trans h₃⟩
      | closed =>
          rw [hc] at h
          cases h

end

/-! ## Isolation -/

/-- A connection after `handle_write`: a fresh one, but for `threaded`. -/
def Reset (c : HttpConnection) : Prop :=
  ∃ state type httpRet postsize, c = { (new state type httpRet postsize).start with
    threaded := c.threaded }

theorem reset_handleWrite (c : HttpConnection) : Reset c.handleWrite :=
  ⟨c.state, c.type, c.httpRet, 0, rfl⟩

@[simp] theorem threaded_clampRet (c : HttpConnection) : c.clampRet.threaded = c.threaded := by
  unfold clampRet
  split <;> rfl

@[simp] theorem threaded_defaultBody (c : HttpConnection) :
    c.defaultBody.threaded = c.threaded := by
  unfold defaultBody
  split <;> rfl

@[simp] theorem threaded_setDefault (c : HttpConnection) (key value : Bytes) :
    (c.setDefault key value).threaded = c.threaded := by
  unfold setDefault
  split <;> rfl

theorem threaded_beginResponse (c : HttpConnection) :
    c.beginResponse.2.threaded = c.threaded := by
  unfold beginResponse
  dsimp only
  split <;> simp

/-- `threaded` is set by a push, and by nothing else. -/
theorem threaded_processRequest {G : Type*} (reqHandler : RequestHandler G) (g : G)
    (c : HttpConnection) : (c.processRequest reqHandler g).2.1.threaded = true ↔
      c.threaded = true ∨ (c.processRequest reqHandler g).1 = .pushToThreadpool := by
  unfold processRequest
  obtain ⟨ret, changes, g'⟩ := reqHandler g c.view
  have hthreaded := threaded_foldl c changes
  dsimp only
  generalize changes.foldl apply c = c' at hthreaded ⊢
  rw [← hthreaded]
  by_cases hswitch : ret = HTTP_SWITCH_THREAD
  · simp only [if_pos hswitch]
    by_cases hc : c'.threaded = true
    · simp [hc, threaded_beginResponse, setBody]
    · simp [hc]
  · simp [hswitch, threaded_beginResponse]

section

variable {G : Type*} {reqHandler : RequestHandler G}

theorem threaded_handle (reqHandler : RequestHandler G) (g : G) (c : HttpConnection) :
    (c.handle reqHandler g).2.1.threaded = true ↔
      c.threaded = true ∨ ∃ call ∈ (c.handle reqHandler g).1,
        call.decision = .pushToThreadpool := by
  have hfirst := threaded_processRequest reqHandler g c
  unfold handle
  dsimp only
  by_cases hpush : (c.processRequest reqHandler g).1 = .pushToThreadpool
  · have hsecond := threaded_processRequest reqHandler (c.processRequest reqHandler g).2.2
      (c.processRequest reqHandler g).2.1
    have hthreaded := hfirst.mpr (.inr hpush)
    simp [hpush, hsecond, hthreaded]
  · simp [hpush, hfirst]

/-- The first call sees the connection as it was parsed. -/
theorem head_handle (reqHandler : RequestHandler G) (g : G) (c : HttpConnection) :
    ((c.handle reqHandler g).1.head?).map Call.view = some c.view := by
  unfold handle
  dsimp only
  split <;> rfl

/-- After any number of requests the connection is as new, but for the mark
of a push. -/
theorem reset_of_reachable {s : Connection G} (h : (connection reqHandler).Reachable s) :
    Reset s.conn ∧ (s.conn.threaded = true ↔ ∃ call ∈ s.log,
      call.decision = .pushToThreadpool) := by
  refine h.invariant (P := fun s => Reset s.conn ∧ (s.conn.threaded = true ↔ ∃ call ∈ s.log,
    call.decision = .pushToThreadpool)) ?_ ?_
  · intro s hs
    obtain ⟨⟨state, type, httpRet, postsize, hconn⟩, hlog⟩ := hs
    refine ⟨⟨state, type, httpRet, postsize, by rw [hconn]⟩, ?_⟩
    rw [hconn, hlog]
    simp [new, start]
  · intro s rs s' hs hstep
    obtain ⟨r, hr, rfl⟩ := Option.map_eq_some_iff.mp hstep
    unfold exchange at hr
    split at hr
    · next c hfeed =>
        cases hr
        refine ⟨reset_handleWrite _, ?_⟩
        have hsame := (untouched_feed rs hfeed).1
        have hhandle := threaded_handle reqHandler s.g c
        show (c.handle reqHandler s.g).2.1.threaded = true ↔ _
        rw [hhandle, hsame, hs.2]
        simp only [List.mem_append, or_and_right, exists_or]
    · cases hr

theorem Reset.shows {c : HttpConnection} (h : Reset c) : Phase.Shows c (.header []) := by
  obtain ⟨state, type, httpRet, postsize, hc⟩ := h
  rw [hc]
  exact ⟨rfl, rfl, rfl⟩

/-- Two connections that are as new parse the same. -/
theorem Reset.feed {c d c' : HttpConnection} (hc : Reset c) (hd : Reset d) {rs : List Bytes}
    (hparsed : HttpConnection.feed c rs = .parsed c') :
    ∃ d', HttpConnection.feed d rs = .parsed d' ∧ d'.type = c'.type ∧ d'.path = c'.path ∧
      d'.post = c'.post := by
  have hagrees := feed_agrees rs hc.shows
  have hagrees' := feed_agrees rs hd.shows
  rw [hparsed] at hagrees
  have hparsed : rs.foldlM Phase.read (.header [])
      = Except.error (.accepted c'.type c'.path c'.post) := hagrees
  rw [hparsed] at hagrees'
  cases hfeed : HttpConnection.feed d rs with
  | parsed d' =>
      rw [hfeed] at hagrees'
      have heq : Except.error (.accepted c'.type c'.path c'.post)
          = (Except.error (.accepted d'.type d'.path d'.post) : Except Outcome Phase) := hagrees'
      rw [Except.error.injEq, Outcome.accepted.injEq] at heq
      exact ⟨d', rfl, heq.1.symm, heq.2.1.symm, heq.2.2.symm⟩
  | more d' =>
      rw [hfeed] at hagrees'
      obtain ⟨p, hp, -⟩ := hagrees'
      cases hp
  | closed =>
      rw [hfeed] at hagrees'
      cases hagrees'

/-- After any number of requests on a connection, a request that is handled
is handled as the first one on a fresh connection would be (the calls of the
handler see the same, and `process_request` decides the same) exactly if no
request before it was pushed. -/
theorem isolated_iff {s : Connection G} (h : (connection reqHandler).Reachable s)
    {rs : List Bytes} (hhandled : (s.conn.exchange reqHandler s.g rs).isSome) (state : State)
    (type : RequestType) (httpRet : Int) (postsize : Nat) :
    (s.conn.exchange reqHandler s.g rs).map Prod.fst
        = ((new state type httpRet postsize).start.exchange reqHandler s.g rs).map Prod.fst ↔
      ∀ call ∈ s.log, call.decision ≠ .pushToThreadpool := by
  obtain ⟨hreset, hmark⟩ := reset_of_reachable h
  have hfresh : Reset (new state type httpRet postsize).start :=
    ⟨state, type, httpRet, postsize, rfl⟩
  obtain ⟨r, hr⟩ := Option.isSome_iff_exists.mp hhandled
  obtain ⟨c, hc⟩ : ∃ c, HttpConnection.feed s.conn rs = .parsed c := by
    unfold exchange at hr
    split at hr
    · next c hfeed => exact ⟨c, hfeed⟩
    · cases hr
  obtain ⟨d, hd, htype, hpath, hpost⟩ := hreset.feed hfresh hc
  obtain ⟨hct, hch, hcb⟩ := untouched_feed rs hc
  obtain ⟨hdt, hdh, hdb⟩ := untouched_feed rs hd
  have hlog : (∀ call ∈ s.log, call.decision ≠ .pushToThreadpool) ↔ s.conn.threaded = false := by
    rw [← Bool.not_eq_true, hmark]
    simp
  have hdt : d.threaded = false := hdt
  simp only [exchange, hc, hd, Option.map_some, Option.some.injEq, hlog]
  constructor
  · intro heq
    have hview := (head_handle reqHandler s.g c).symm.trans (heq ▸ head_handle reqHandler s.g d)
    have hthreaded := congrArg View.inThreadpool (Option.some.inj hview)
    exact hct.symm.trans (hthreaded.trans hdt)
  · intro hnot
    obtain ⟨_, _, _, _, hconn⟩ := hreset
    have halike : Alike c d := by
      refine ⟨?_, ?_, ?_⟩
      · simp [HttpConnection.view, htype, hpath, hpost, hdt, hct, hnot]
      · rw [hch, hdh, hconn]
        rfl
      · rw [hcb, hdb, hconn]
        rfl
    exact halike.handle reqHandler s.g

end

/-- `GET / HTTP/1.1`, in one read. -/
def getRoot : List Bytes := [ascii "GET / HTTP/1.1\r\n\r\n"]

/-- A new connection. -/
def opened : Connection Unit := ⟨(new .kProcessing .HTTP_INVALID 0 0).start, (), []⟩

theorem reachable_opened (reqHandler : RequestHandler Unit) :
    (connection reqHandler).Reachable opened := .init ⟨⟨_, _, _, _, rfl⟩, rfl⟩

theorem isolated_second_request : ∃ s : Connection Unit, s.log.length = 1 ∧
    (s.conn.exchange (fun g _ => (HTTP_200, [], g)) s.g getRoot).map Prod.fst
      = (opened.conn.exchange (fun g _ => (HTTP_200, [], g)) s.g getRoot).map Prod.fst := by
  obtain ⟨reqHandler, hhandler⟩ : ∃ f : RequestHandler Unit, f = fun g _ => (HTTP_200, [], g) :=
    ⟨_, rfl⟩
  have hrun : ((connection reqHandler).run opened [getRoot]).map (fun s =>
      (s.log.length, (s.conn.exchange reqHandler s.g getRoot).isSome,
        s.log.all fun call => decide (call.decision ≠ .pushToThreadpool)))
      = some (1, true, true) := by
    subst hhandler
    decide +kernel
  obtain ⟨s, hs, hfacts⟩ := Option.map_eq_some_iff.mp hrun
  simp only [Prod.mk.injEq, List.all_eq_true, decide_eq_true_eq] at hfacts
  have hreach := System.reachable_of_run [getRoot] (reachable_opened reqHandler) hs
  rw [← hhandler]
  exact ⟨s, hfacts.1, (isolated_iff hreach hfacts.2.1 .kProcessing .HTTP_INVALID 0 0).mpr
    hfacts.2.2⟩

/-- A handler that sends every request to the pool. -/
def poolHandler : RequestHandler Unit := fun g v =>
  (if v.inThreadpool then HTTP_200 else HTTP_SWITCH_THREAD, [], g)

/-- Of each call, whether the handler saw the pool and whether the request
was pushed. -/
def poolUse (r : List Call × HttpConnection × Unit) : List (Bool × Bool) :=
  r.1.map fun call => (call.view.inThreadpool, decide (call.decision = .pushToThreadpool))

/-- The second request is handled on the I/O thread as if in the pool. -/
theorem second_request_not_isolated : ∃ s : Connection Unit,
    (connection poolHandler).Reachable s ∧ s.log.length = 2 ∧
    (s.conn.exchange poolHandler s.g getRoot).map poolUse = some [(true, false)] ∧
    (opened.conn.exchange poolHandler s.g getRoot).map poolUse
      = some [(false, true), (true, false)] := by
  have hrun : ((connection poolHandler).run opened [getRoot]).map (fun s =>
      (s.log.length, (s.conn.exchange poolHandler s.g getRoot).map poolUse,
        (opened.conn.exchange poolHandler s.g getRoot).map poolUse))
      = some (2, some [(true, false)], some [(false, true), (true, false)]) := by decide +kernel
  obtain ⟨s, hs, hfacts⟩ := Option.map_eq_some_iff.mp hrun
  simp only [Prod.mk.injEq] at hfacts
  exact ⟨s, System.reachable_of_run [getRoot] (reachable_opened poolHandler) hs, hfacts⟩

end HttpConnection

end VideoMatch.Browse
