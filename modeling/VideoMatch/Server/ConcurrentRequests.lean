/-
VideoMatch.Server.ConcurrentRequests — requests of several threads.

The HTTP library runs the handler in the threads of its pool. A thread
carries out one request after the other: it takes a posted body apart and
calls `Add` or `Query`, or it looks a key up and then calls `Query` with the
frames it got. So a query by key takes the mutex twice, and others may add
videos in between. The steps inside of `Query` are those of
`ConcurrentQuery`.

A request takes effect at its `Add`, at its lookup of candidates, or where
it finds that it has nothing to do. The log has the requests in this order.
The replies are those that the catalogue service gives if it gets the
requests in the order of the log, one after the other
(`requests_in_order`).

`GET /save` is the matter of `ConcurrentSave`. `GET /info` runs in another
thread and reads sizes without the mutex, so it is left out.
-/
import VideoMatch.Machine.Moments
import VideoMatch.Server.ConcurrentQuery
import VideoMatch.Server.MatchServerTheorems

namespace VideoMatch.Server

open VideoMatch.Cxx VideoMatch.Machine

variable (J : JsonCpp) (er : EqualRange UInt64)

/-! ## Threads -/

/-- How the reply to a query is written. -/
inductive Form where
  | post
  | byKey (key : Bytes) (plain : Bool)

/-- The end of `Process` for a query, and of `Query(key, reply, plain)`. -/
def Form.reply (timeMs code : Int) (result : List (Bytes × ℚ)) : Form → Option Bytes
  | .post => (queryReply code result).map fun rv => J.write (.obj rv)
  | .byKey _ false => (queryReply code result).map fun rv =>
      J.write (.obj (Json.set rv (ascii "time_ms") (.int timeMs)))
  | .byKey key true => some (result.flatMap fun r => plainLine key r.1 r.2)

/-- What a thread is about to do. -/
inductive Stage where
  /-- to refuse a body -/
  | refuses (msg : String)
  /-- `Add` -/
  | adds (name : Bytes) (frames : List UInt64)
  /-- `Query(key, data_item)` -/
  | asks (key : Bytes) (plain : Bool)
  /-- `Query(data_item, result)`, not yet called -/
  | calls (frames : List UInt64) (form : Form)
  /-- to go on with `Query(data_item, result)` -/
  | queries (form : Form)
  /-- to return -/
  | replies (body : Bytes)

/-- A request under way. When it arrived and when it took effect is
bookkeeping. -/
structure Task where
  ch : Chance
  req : HttpRequest
  stage : Stage
  arrived : Nat
  moment : Option Nat

structure RequestState where
  queries : QueryState
  tasks : Nat → Option Task
  log : List Happening
  done : List (Served Happening (Option HandlerEnd))

/-- The steps of a thread. -/
inductive TaskEvent where
  | refuse
  | add (o : HashOrder)
  | ask
  | call
  | lookup (o : HashOrder)
  | check
  | finish (o : HashOrder)
  | reply

inductive RequestEvent where
  | arrive (t : Nat) (ch : Chance) (req : HttpRequest)
  | work (t : Nat) (e : TaskEvent)

/-- Where a request starts; `none` is an exception of the JSON library, or a
request that is not for these threads. -/
def firstStage : Action → Option Stage
  | .post body => (requestOf J body).map fun
      | .error msg => .refuses msg
      | .ok (.add name frames) => .adds name frames
      | .ok (.query frames) => .calls frames .post
  | .queryKey key plain => some (.asks key plain)
  | _ => none

namespace RequestState

/-- Thread `t` goes on. -/
def goOn (st : RequestState) (t : Nat) (task : Task) (stage : Stage) : RequestState :=
  { st with tasks := Function.update st.tasks t (some { task with stage := stage }) }

/-- Thread `t` goes on, and its request takes effect. -/
def effect (st : RequestState) (t : Nat) (task : Task) (stage : Stage) : RequestState :=
  { st with
    log := st.log ++ [.request task.ch task.req]
    tasks := Function.update st.tasks t
      (some { task with stage := stage, moment := some st.log.length }) }

/-- A step of thread `t` on its task; `none` if it is not the next one, or
if it faults. -/
def work (st : RequestState) (t : Nat) (task : Task) (e : TaskEvent) : Option RequestState :=
  match task.stage, e with
  | .refuses msg, .refuse => some (st.effect t task (.replies (J.write (badRpl msg))))
  | .adds name frames, .add o =>
      (VideoDB.add o st.queries.vdb (DataItem.ofFrames name frames)).map fun (code, vdb) =>
        { st with queries := { st.queries with vdb := vdb } }.effect t task
          (.replies (J.write (addReply code)))
  | .asks key plain, .ask =>
      (VideoDB.queryName st.queries.vdb key (DataItem.ofFrames [] [])).map fun (r, dataItem) =>
        if r < 0 then
          st.effect t task (.replies (if plain then [] else J.write (badRpl "Key not found")))
        else st.goOn t task (.calls dataItem.frames (.byKey key plain))
  | .calls frames form, .call =>
      (st.queries.step er (.call t frames)).map fun queries =>
        { st with queries := queries }.goOn t task (.queries form)
  | .queries form, .lookup o =>
      (st.queries.step er (.lookup t o)).map fun queries =>
        { st with queries := queries }.effect t task (.queries form)
  | .queries _, .check =>
      (st.queries.step er (.check t)).map fun queries => { st with queries := queries }
  | .queries form, .finish o =>
      (st.queries.step er (.finish t o)).bind fun queries =>
        match queries.threads t with
        | .finished _ _ _ code result =>
            (form.reply J task.ch.timeMs code result).map fun body =>
              { st with queries := queries }.goOn t task (.replies body)
        | _ => none
  | .replies body, .reply =>
      task.moment.map fun m => { st with
        tasks := Function.update st.tasks t none
        done := st.done ++ [⟨.request task.ch task.req, some (respond body), task.arrived, m,
          st.log.length⟩] }
  | _, _ => none

/-- One step; `none` if it cannot happen. -/
def step (st : RequestState) : RequestEvent → Option RequestState
  | .arrive t ch req =>
      match st.tasks t with
      | some _ => none
      | none => (firstStage J req.action).map fun stage =>
          st.goOn t ⟨ch, req, stage, st.log.length, none⟩ stage
  | .work t e => (st.tasks t).bind fun task => st.work J er t task e

/-- A server after its start, no request under way. -/
structure Initial (st : RequestState) : Prop where
  queries : st.queries.Initial
  tasks : ∀ t, st.tasks t = none
  log : st.log = []
  done : st.done = []

def system : System RequestState RequestEvent := ⟨Initial, step J er⟩

/-- What the server has at its start. -/
def holdings (st : RequestState) : Holdings where
  live := st.queries.vdb.catalogue
  saved := st.queries.vdb.catalogue
  running := true

end RequestState

/-! ## The queries below -/

/-- The thread is in no query. -/
def QueryThread.quiet : QueryThread → Bool
  | .idle | .finished .. => true
  | _ => false

namespace QueryState

variable {er} {st : QueryState} {t : Nat}

theorem call_spec (h : (st.threads t).quiet = true) (q : List UInt64) :
    step er st (.call t q) = some (st.setThread t (.called q st.vdb.catalogue)) := by
  cases ht : st.threads t with
  | idle | finished => simp only [step, ht]
  | called | checking => simp [ht, QueryThread.quiet] at h

theorem lookup_spec (hinv : Inv er st) {q : List UInt64} {atCall : Catalogue}
    (ht : st.threads t = .called q atCall) (o : HashOrder) :
    ∃ cands vdb, step er st (.lookup t o)
        = some ({ st with vdb := vdb }.setThread t (.checking q atCall st.vdb cands [])) ∧
      vdb.catalogue = st.vdb.catalogue := by
  obtain ⟨cands, hcands, -⟩ := VideoDB.getCandidates1_spec hinv.vdb o q
  refine ⟨cands, { st.vdb with heap := VideoDB.withRefs st.vdb.heap cands }, ?_, ?_⟩
  · simp only [step, ht, hcands, Option.map_some]
  · exact Catalogue.ext
      (catalogue_of_sameButRefs (VideoDB.sameButRefs_withRefs st.vdb cands) hinv.vdb)

theorem check_spec (hinv : Inv er st) {q : List UInt64} {atCall : Catalogue} {snap : VideoDB}
    {p : Nat} {cands : List Nat} {result : List (Bytes × ℚ)}
    (ht : st.threads t = .checking q atCall snap (p :: cands) result) :
    ∃ result' vdb, step er st (.check t)
        = some ({ st with vdb := vdb }.setThread t (.checking q atCall snap cands result')) ∧
      vdb.catalogue = st.vdb.catalogue := by
  have hth := hinv.threads t
  rw [ht] at hth
  obtain ⟨-, -, hext, done, hperm, -⟩ := hth
  have hmem : p ∈ snap.candidates q := hperm.mem_iff.mp (by simp)
  obtain ⟨di, hp, -⟩ := VideoDB.mem_candidates.mp hmem
  obtain ⟨⟨di', hp'⟩, -⟩ := scoreAt_of_extends er q hext hp
  obtain ⟨vdb, hcheck, hrefs⟩ := checkOne_stored er q hinv.vdb hp' result
  refine ⟨result ++ (VideoDB.scoreAt er st.vdb q p).toList, vdb, ?_, ?_⟩
  · simp only [step, ht, hcheck, Option.map_some]
  · exact Catalogue.ext (catalogue_of_sameButRefs hrefs hinv.vdb)

theorem finish_spec {q : List UInt64} {atCall : Catalogue} {snap : VideoDB}
    {result : List (Bytes × ℚ)} (ht : st.threads t = .checking q atCall snap [] result)
    (o : HashOrder) :
    step er st (.finish t o) = some (st.setThread t (.finished q atCall snap
      (toInt (VideoDB.sortResult o result).length) (VideoDB.sortResult o result))) := by
  simp only [step, ht]

/-- What a finished query has found. -/
theorem Inv.ranked (hinv : Inv er st) {q : List UInt64} {atCall : Catalogue} {snap : VideoDB}
    {code : Int} {result : List (Bytes × ℚ)}
    (ht : st.threads t = .finished q atCall snap code result) :
    code = toInt result.length ∧ Ranked er snap.catalogue q result := by
  have hth := hinv.threads t
  rw [ht] at hth
  obtain ⟨-, -, hcode, hscan, hsorted⟩ := hth
  exact ⟨hcode, hscan, hsorted⟩

end QueryState

/-! ## The invariant -/

/-- The query is the one the action asks for. -/
def Form.Fits (c : Catalogue) (a : Action) (q : List UInt64) : Form → Prop
  | .post => ∃ body, a = .post body ∧ requestOf J body = some (.ok (.query q))
  | .byKey key plain => a = .queryKey key plain ∧ (key, q) ∈ c.videos

/-- What is left to do before a request takes effect. -/
def Stage.Fits (c : Catalogue) (a : Action) : Stage → Prop
  | .refuses msg => ∃ body, a = .post body ∧ requestOf J body = some (.error msg)
  | .adds name frames =>
      ∃ body, a = .post body ∧ requestOf J body = some (.ok (.add name frames))
  | .asks key plain => a = .queryKey key plain
  | .calls frames form => form.Fits J c a frames
  | _ => False

/-- An action of these threads, and not one that the JSON library raises
on. -/
inductive Action.Known : Action → Prop
  | post {body : Bytes} (h : requestOf J body ≠ none) : Known (.post body)
  | queryKey (key : Bytes) (plain : Bool) : Known (.queryKey key plain)

/-- What the server has after the requests in the log. -/
def heldAfter (h₀ : Holdings) (log : List Happening) : Holdings :=
  (catalogueService J er).afterAll h₀ log

/-- What is known of a thread and its task. -/
inductive Sound (h₀ : Holdings) (log : List Happening) (c : Catalogue) (th : QueryThread) :
    Option Task → Prop
  | idle (hquiet : th.quiet = true) : Sound h₀ log c th none
  | waits {ch : Chance} {req : HttpRequest} {stage : Stage} {arrived : Nat}
      (hquiet : th.quiet = true) (hstage : stage.Fits J c req.action)
      (harrived : arrived ≤ log.length) : Sound h₀ log c th (some ⟨ch, req, stage, arrived, none⟩)
  | called {ch : Chance} {req : HttpRequest} {form : Form} {arrived : Nat} {q : List UInt64}
      {atCall : Catalogue} (hth : th = .called q atCall) (hform : form.Fits J c req.action q)
      (harrived : arrived ≤ log.length) :
      Sound h₀ log c th (some ⟨ch, req, .queries form, arrived, none⟩)
  | checking {ch : Chance} {req : HttpRequest} {form : Form} {arrived m : Nat} {q : List UInt64}
      {atCall : Catalogue} {snap : VideoDB} {cands : List Nat} {result : List (Bytes × ℚ)}
      (hth : th = .checking q atCall snap cands result)
      (hform : form.Fits J snap.catalogue req.action q)
      (hlive : snap.catalogue = (heldAfter J er h₀ (log.take m)).live)
      (harrived : arrived ≤ m) (hlogged : log[m]? = some (.request ch req)) :
      Sound h₀ log c th (some ⟨ch, req, .queries form, arrived, some m⟩)
  | replies {ch : Chance} {req : HttpRequest} {body : Bytes} {arrived m : Nat}
      (hquiet : th.quiet = true)
      (hright : (heldAfter J er h₀ (log.take m)).Replies J er ch req.action (respond body))
      (harrived : arrived ≤ m) (hlogged : log[m]? = some (.request ch req)) :
      Sound h₀ log c th (some ⟨ch, req, .replies body, arrived, some m⟩)

namespace RequestState

/-- The moments of the requests that have taken effect. -/
def pending (st : RequestState) (t : Nat) : Option Nat := (st.tasks t).bind Task.moment

structure Inv (h₀ : Holdings) (st : RequestState) : Prop where
  queries : (QueryState.system er).Reachable st.queries
  allowed : (catalogueService J er).AllowedAll h₀ st.log
  running : (heldAfter J er h₀ st.log).running = true
  live : st.queries.vdb.catalogue = (heldAfter J er h₀ st.log).live
  tasks : ∀ t, Sound J er h₀ st.log st.queries.vdb.catalogue (st.queries.threads t) (st.tasks t)
  order : InOrder (catalogueService J er) h₀ st.log st.pending st.done

end RequestState

section

variable {J} {er} {h₀ : Holdings} {log : List Happening} {c c' : Catalogue} {th : QueryThread}

theorem heldAfter_concat (ch : Chance) (req : HttpRequest) :
    heldAfter J er h₀ (log ++ [.request ch req])
      = (heldAfter J er h₀ log).after J ch req.action := by
  rw [heldAfter, Purpose.afterAll, List.foldl_append]
  rfl

theorem Form.Fits.mono {a : Action} {q : List UInt64} {form : Form} (h : form.Fits J c a q)
    (hle : c.videos ≤ c'.videos) : form.Fits J c' a q := by
  cases form with
  | post => exact h
  | byKey key plain => exact ⟨h.1, Multiset.mem_of_le hle h.2⟩

theorem Stage.Fits.mono {a : Action} {stage : Stage} (h : stage.Fits J c a)
    (hle : c.videos ≤ c'.videos) : stage.Fits J c' a := by
  cases stage with
  | calls frames form => exact Form.Fits.mono h hle
  | refuses | adds | asks | queries | replies => exact h

theorem Form.Fits.known {a : Action} {q : List UInt64} {form : Form} (h : form.Fits J c a q) :
    a.Known J := by
  cases form with
  | post =>
      obtain ⟨body, rfl, hbody⟩ := h
      exact .post (by simp [hbody])
  | byKey key plain => exact h.1 ▸ .queryKey key plain

/-- A query leaves the videos as they are. -/
theorem Form.Fits.live_after {a : Action} {q : List UInt64} {form : Form}
    (h : form.Fits J c a q) (held : Holdings) (ch : Chance) :
    (held.after J ch a).live = held.live := by
  cases form with
  | post =>
      obtain ⟨body, rfl, hbody⟩ := h
      simp only [Holdings.after, hbody]
  | byKey key plain =>
      rw [h.1]
      rfl

/-- The reply to a query, once its matches are there. -/
theorem Form.Fits.reply {a : Action} {q : List UInt64} {form : Form} {held : Holdings}
    {out : List (Bytes × ℚ)} (h : form.Fits J held.live a q) (hout : Ranked er held.live q out)
    (ch : Chance) : ∃ body, form.reply J ch.timeMs (toInt out.length) out = some body ∧
      held.Replies J er ch a (respond body) := by
  have hrv := queryReply_eq (toInt out.length) out
  cases form with
  | post =>
      obtain ⟨body, rfl, hbody⟩ := h
      exact ⟨_, by rw [Form.reply, hrv, Option.map_some], .answered hbody hout hrv⟩
  | byKey key plain =>
      obtain ⟨rfl, hmem⟩ := h
      cases plain with
      | false => exact ⟨_, by rw [Form.reply, hrv, Option.map_some], .found hmem hout hrv⟩
      | true => exact ⟨_, rfl, .foundPlain hmem hout⟩

theorem Action.Known.allows {a : Action} (ha : a.Known J) (h : Holdings) (ch : Chance) :
    h.Allows J ch a := by
  cases ha with
  | post hbody => exact hbody
  | queryKey key plain => trivial

theorem Action.Known.keepsRunning {a : Action} (ha : a.Known J) (h : Holdings) (ch : Chance) :
    (h.after J ch a).running = h.running := by
  cases ha with
  | post hbody => exact (h.after_post J ch _).2
  | queryKey key plain => rfl

/-- A task does not mind what the others do. -/
theorem Sound.mono {task : Option Task} (h : Sound J er h₀ log c th task) (more : List Happening)
    (hle : c.videos ≤ c'.videos) : Sound J er h₀ (log ++ more) c' th task := by
  have hlen : ∀ {n}, n ≤ log.length → n ≤ (log ++ more).length := by
    intro n hn
    rw [List.length_append]
    omega
  have hlog : ∀ {m e}, log[m]? = some e →
      (log ++ more)[m]? = some e ∧ (log ++ more).take m = log.take m := by
    intro m e hm
    have hlt := (List.getElem?_eq_some_iff.mp hm).1
    rw [List.getElem?_append_left hlt, List.take_append_of_le_length hlt.le]
    exact ⟨hm, rfl⟩
  cases h with
  | idle hquiet => exact .idle hquiet
  | waits hquiet hstage harrived => exact .waits hquiet (hstage.mono hle) (hlen harrived)
  | called hth hform harrived => exact .called hth (hform.mono hle) (hlen harrived)
  | checking hth hform hlive harrived hlogged =>
      obtain ⟨hlogged', htake⟩ := hlog hlogged
      exact .checking hth hform (htake ▸ hlive) harrived hlogged'
  | replies hquiet hright harrived hlogged =>
      obtain ⟨hlogged', htake⟩ := hlog hlogged
      exact .replies hquiet (htake ▸ hright) harrived hlogged'

end

/-! ## The steps -/

@[simp] theorem QueryState.setThread_self (st : QueryState) (t : Nat) (th : QueryThread) :
    (st.setThread t th).threads t = th := Function.update_self ..

theorem QueryState.setThread_of_ne (st : QueryState) {t u : Nat} (hu : u ≠ t)
    (th : QueryThread) : (st.setThread t th).threads u = st.threads u := Function.update_of_ne hu ..

namespace RequestState

variable {J} {er} {h₀ : Holdings} {st : RequestState} {t : Nat}

/-- One thread goes on, and nothing takes effect. -/
theorem Inv.oneThread (h : Inv J er h₀ st) {queries : QueryState} {tasks : Nat → Option Task}
    (hreach : (QueryState.system er).Reachable queries)
    (hcat : queries.vdb.catalogue = st.queries.vdb.catalogue)
    (hothers : ∀ u, u ≠ t → queries.threads u = st.queries.threads u ∧ tasks u = st.tasks u)
    (hmoment : (tasks t).bind Task.moment = st.pending t)
    (hsound : Sound J er h₀ st.log st.queries.vdb.catalogue (queries.threads t) (tasks t)) :
    Inv J er h₀ { st with queries := queries, tasks := tasks } := by
  have hpending : pending { st with queries := queries, tasks := tasks } = st.pending := by
    funext u
    by_cases hu : u = t
    · rw [hu]
      exact hmoment
    · exact congrArg (·.bind Task.moment) (hothers u hu).2
  refine ⟨hreach, h.allowed, h.running, hcat.trans h.live, fun u => ?_, hpending ▸ h.order⟩
  show Sound J er h₀ st.log queries.vdb.catalogue (queries.threads u) (tasks u)
  rw [hcat]
  by_cases hu : u = t
  · rw [hu]
    exact hsound
  · rw [(hothers u hu).1, (hothers u hu).2]
    exact h.tasks u

/-- The same where the task has another stage. -/
theorem Inv.goOn (h : Inv J er h₀ st) {queries : QueryState} {task : Task} {stage : Stage}
    (hreach : (QueryState.system er).Reachable queries)
    (hcat : queries.vdb.catalogue = st.queries.vdb.catalogue)
    (hothers : ∀ u, u ≠ t → queries.threads u = st.queries.threads u)
    (hmoment : task.moment = st.pending t)
    (hsound : Sound J er h₀ st.log st.queries.vdb.catalogue (queries.threads t)
      (some { task with stage := stage })) :
    Inv J er h₀ ({ st with queries := queries }.goOn t task stage) := by
  refine h.oneThread hreach hcat (fun u hu => ⟨hothers u hu, Function.update_of_ne hu ..⟩) ?_ ?_
  · rw [Function.update_self]
    exact hmoment
  · rw [Function.update_self]
    exact hsound

/-- A request takes effect. -/
theorem Inv.effect (h : Inv J er h₀ st) {queries : QueryState} {ch : Chance} {req : HttpRequest}
    {stage stage' : Stage} {arrived : Nat}
    (ht : st.tasks t = some ⟨ch, req, stage, arrived, none⟩) (hknown : req.action.Known J)
    (hreach : (QueryState.system er).Reachable queries)
    (hcat : queries.vdb.catalogue = ((heldAfter J er h₀ st.log).after J ch req.action).live)
    (hothers : ∀ u, u ≠ t → queries.threads u = st.queries.threads u)
    (hsound : Sound J er h₀ (st.log ++ [.request ch req]) queries.vdb.catalogue
      (queries.threads t) (some ⟨ch, req, stage', arrived, some st.log.length⟩)) :
    Inv J er h₀
      ({ st with queries := queries }.effect t ⟨ch, req, stage, arrived, none⟩ stage') := by
  have hle : st.queries.vdb.catalogue.videos ≤ queries.vdb.catalogue.videos := by
    rw [h.live, hcat]
    exact (heldAfter J er h₀ st.log).live_le_next J (e := .request ch req) (by simp)
  have hpending : pending ({ st with queries := queries }.effect t ⟨ch, req, stage, arrived, none⟩
      stage') = Function.update st.pending t (some st.log.length) := by
    funext u
    by_cases hu : u = t
    · subst hu
      simp [pending, RequestState.effect]
    · simp [pending, RequestState.effect, Function.update_of_ne hu]
  refine ⟨hreach, ?_, ?_, ?_, fun u => ?_, ?_⟩
  · exact Purpose.allowedAll_append.mpr ⟨h.allowed, ⟨h.running, hknown.allows _ ch⟩, trivial⟩
  · exact heldAfter_concat ch req ▸ (hknown.keepsRunning _ ch).trans h.running
  · exact heldAfter_concat ch req ▸ hcat
  · show Sound J er h₀ (st.log ++ [.request ch req]) queries.vdb.catalogue (queries.threads u)
      (Function.update st.tasks t _ u)
    by_cases hu : u = t
    · subst hu
      rw [Function.update_self]
      exact hsound
    · rw [Function.update_of_ne hu, hothers u hu]
      exact (h.tasks u).mono _ hle
  · rw [hpending]
    exact h.order.effect (by simp [pending, ht]) _

theorem Inv.queryStep (h : Inv J er h₀ st) {e : QueryEvent} {queries : QueryState}
    (hstep : st.queries.step er e = some queries) : (QueryState.system er).Reachable queries :=
  .step h.queries trivial hstep

/-- What a body is refused with. -/
theorem Inv.refuse (h : Inv J er h₀ st) {ch : Chance} {req : HttpRequest} {msg : String}
    {arrived : Nat} (ht : st.tasks t = some ⟨ch, req, .refuses msg, arrived, none⟩)
    (hquiet : (st.queries.threads t).quiet = true)
    (hstage : (Stage.refuses msg).Fits J st.queries.vdb.catalogue req.action)
    (harrived : arrived ≤ st.log.length) :
    ∃ st', st.work J er t ⟨ch, req, .refuses msg, arrived, none⟩ .refuse = some st' ∧
      Inv J er h₀ st' := by
  obtain ⟨body, haction, hbody⟩ := hstage
  refine ⟨_, rfl, h.effect ht (haction ▸ .post (by simp [hbody])) h.queries ?_ (fun _ _ => rfl) ?_⟩
  · rw [h.live, haction]
    simp only [Holdings.after, hbody]
  · refine .replies hquiet ?_ harrived List.getElem?_concat_length
    rw [List.take_left, haction]
    exact .refused hbody

/-- An `Add`, under the mutex. -/
theorem Inv.add (h : Inv J er h₀ st) {ch : Chance} {req : HttpRequest} {name : Bytes}
    {frames : List UInt64} {arrived : Nat}
    (ht : st.tasks t = some ⟨ch, req, .adds name frames, arrived, none⟩)
    (hquiet : (st.queries.threads t).quiet = true)
    (hstage : (Stage.adds name frames).Fits J st.queries.vdb.catalogue req.action)
    (harrived : arrived ≤ st.log.length) (o : HashOrder) :
    ∃ st', st.work J er t ⟨ch, req, .adds name frames, arrived, none⟩ (.add o) = some st' ∧
      Inv J er h₀ st' := by
  obtain ⟨body, haction, hbody⟩ := hstage
  obtain ⟨vdb, hadd, -, hcat⟩ := VideoDB.add_catalogue (QueryState.inv_of_reachable h.queries).vdb o
    (DataItem.ofFrames name frames)
  have hreach : (QueryState.system er).Reachable { st.queries with vdb := vdb } :=
    .step (e := .add o (DataItem.ofFrames name frames)) h.queries trivial
      (by simp only [QueryState.system, QueryState.step, hadd, Option.map_some])
  refine ⟨_, by simp only [work, hadd, Option.map_some]; rfl,
    h.effect ht (haction ▸ .post (by simp [hbody])) hreach ?_ (fun _ _ => rfl) ?_⟩
  · rw [haction]
    simp only [Holdings.after, hbody]
    rw [← h.live]
    exact hcat
  · refine .replies hquiet ?_ harrived List.getElem?_concat_length
    rw [List.take_left, haction, h.live]
    exact .added hbody

/-- A key is looked up, under the mutex. -/
theorem Inv.ask (h : Inv J er h₀ st) {ch : Chance} {req : HttpRequest} {key : Bytes}
    {plain : Bool} {arrived : Nat}
    (ht : st.tasks t = some ⟨ch, req, .asks key plain, arrived, none⟩)
    (hquiet : (st.queries.threads t).quiet = true)
    (hstage : (Stage.asks key plain).Fits J st.queries.vdb.catalogue req.action)
    (harrived : arrived ≤ st.log.length) :
    ∃ st', st.work J er t ⟨ch, req, .asks key plain, arrived, none⟩ .ask = some st' ∧
      Inv J er h₀ st' := by
  replace hstage : req.action = .queryKey key plain := hstage
  rcases VideoDB.queryName_spec (QueryState.inv_of_reachable h.queries).vdb key
    (DataItem.ofFrames [] []) with ⟨hmissing, hname⟩ | ⟨frames, item, hmem, hname, -, rfl⟩
  · refine ⟨_, by simp only [work, hname, Option.map_some]; rfl,
      h.effect ht (hstage ▸ .queryKey key plain) h.queries ?_ (fun _ _ => rfl) ?_⟩
    · rw [h.live, hstage]
      rfl
    · refine .replies hquiet ?_ harrived List.getElem?_concat_length
      rw [List.take_left, hstage]
      rw [h.live] at hmissing
      cases plain with
      | false => exact .missing hmissing
      | true => exact .missingPlain hmissing
  · refine ⟨_, by simp only [work, hname, Option.map_some]; rfl,
      h.goOn h.queries rfl (fun _ _ => rfl) (by simp [pending, ht]) ?_⟩
    exact .waits hquiet ⟨hstage, hmem⟩ harrived

/-- `Query` is called. -/
theorem Inv.call (h : Inv J er h₀ st) {ch : Chance} {req : HttpRequest} {frames : List UInt64}
    {form : Form} {arrived : Nat}
    (ht : st.tasks t = some ⟨ch, req, .calls frames form, arrived, none⟩)
    (hquiet : (st.queries.threads t).quiet = true)
    (hform : form.Fits J st.queries.vdb.catalogue req.action frames)
    (harrived : arrived ≤ st.log.length) :
    ∃ st', st.work J er t ⟨ch, req, .calls frames form, arrived, none⟩ .call = some st' ∧
      Inv J er h₀ st' := by
  have hcall : QueryState.step er st.queries (.call t frames) = _ :=
    QueryState.call_spec hquiet frames
  refine ⟨{ st with queries := _ }.goOn t _ _, by simp only [work, hcall, Option.map_some]; rfl,
    h.goOn (h.queryStep hcall) rfl (fun u hu => QueryState.setThread_of_ne _ hu _)
      (by simp [pending, ht]) ?_⟩
  exact .called (QueryState.setThread_self ..) hform harrived

/-- The candidates are looked up, under the mutex. -/
theorem Inv.lookup (h : Inv J er h₀ st) {ch : Chance} {req : HttpRequest} {form : Form}
    {arrived : Nat} {q : List UInt64} {atCall : Catalogue}
    (ht : st.tasks t = some ⟨ch, req, .queries form, arrived, none⟩)
    (hth : st.queries.threads t = .called q atCall)
    (hform : form.Fits J st.queries.vdb.catalogue req.action q)
    (harrived : arrived ≤ st.log.length) (o : HashOrder) :
    ∃ st', st.work J er t ⟨ch, req, .queries form, arrived, none⟩ (.lookup o) = some st' ∧
      Inv J er h₀ st' := by
  obtain ⟨cands, vdb, hlookup, hcat⟩ :=
    QueryState.lookup_spec (QueryState.inv_of_reachable h.queries) hth o
  refine ⟨{ st with queries := _ }.effect t _ _,
    by simp only [work, hlookup, Option.map_some]; rfl,
    h.effect ht hform.known (h.queryStep hlookup) ?_
      (fun u hu => QueryState.setThread_of_ne _ hu _) ?_⟩
  · rw [hform.live_after, ← h.live]
    exact hcat
  · refine .checking (QueryState.setThread_self ..) hform ?_ harrived List.getElem?_concat_length
    rw [List.take_left, h.live]

/-- A candidate is checked. -/
theorem Inv.check (h : Inv J er h₀ st) {ch : Chance} {req : HttpRequest} {form : Form}
    {arrived m : Nat} {q : List UInt64} {atCall : Catalogue} {snap : VideoDB} {p : Nat}
    {cands : List Nat} {result : List (Bytes × ℚ)}
    (ht : st.tasks t = some ⟨ch, req, .queries form, arrived, some m⟩)
    (hth : st.queries.threads t = .checking q atCall snap (p :: cands) result)
    (hform : form.Fits J snap.catalogue req.action q)
    (hlive : snap.catalogue = (heldAfter J er h₀ (st.log.take m)).live) (harrived : arrived ≤ m)
    (hlogged : st.log[m]? = some (.request ch req)) :
    ∃ st', st.work J er t ⟨ch, req, .queries form, arrived, some m⟩ .check = some st' ∧
      Inv J er h₀ st' := by
  obtain ⟨result', vdb, hcheck, hcat⟩ :=
    QueryState.check_spec (QueryState.inv_of_reachable h.queries) hth
  refine ⟨{ st with queries := _ }, by simp only [work, hcheck, Option.map_some],
    h.oneThread (h.queryStep hcheck) hcat
      (fun u hu => ⟨QueryState.setThread_of_ne _ hu _, rfl⟩) rfl ?_⟩
  rw [ht]
  exact .checking (QueryState.setThread_self ..) hform hlive harrived hlogged

/-- The matches are sorted, and the reply is written. -/
theorem Inv.finish (h : Inv J er h₀ st) {ch : Chance} {req : HttpRequest} {form : Form}
    {arrived m : Nat} {q : List UInt64} {atCall : Catalogue} {snap : VideoDB}
    {result : List (Bytes × ℚ)}
    (ht : st.tasks t = some ⟨ch, req, .queries form, arrived, some m⟩)
    (hth : st.queries.threads t = .checking q atCall snap [] result)
    (hform : form.Fits J snap.catalogue req.action q)
    (hlive : snap.catalogue = (heldAfter J er h₀ (st.log.take m)).live) (harrived : arrived ≤ m)
    (hlogged : st.log[m]? = some (.request ch req)) (o : HashOrder) :
    ∃ st', st.work J er t ⟨ch, req, .queries form, arrived, some m⟩ (.finish o) = some st' ∧
      Inv J er h₀ st' := by
  have hfinish : QueryState.step er st.queries (.finish t o) = _ := QueryState.finish_spec hth o
  have hreach := h.queryStep hfinish
  obtain ⟨-, hranked⟩ :=
    (QueryState.inv_of_reachable hreach).ranked (QueryState.setThread_self ..)
  rw [hlive] at hform hranked
  obtain ⟨body, hbody, hright⟩ := hform.reply hranked ch
  refine ⟨{ st with queries := _ }.goOn t ⟨ch, req, .queries form, arrived, some m⟩
    (.replies body), ?_, h.goOn hreach rfl (fun u hu => QueryState.setThread_of_ne _ hu _)
      (by simp [pending, ht]) ?_⟩
  · simp only [work, hfinish, Option.bind_some, QueryState.setThread_self, hbody, Option.map_some]
  · exact .replies (by rw [QueryState.setThread_self]; rfl) hright harrived hlogged

/-- The handler returns. -/
theorem Inv.reply (h : Inv J er h₀ st) {ch : Chance} {req : HttpRequest} {body : Bytes}
    {arrived m : Nat} (ht : st.tasks t = some ⟨ch, req, .replies body, arrived, some m⟩)
    (hquiet : (st.queries.threads t).quiet = true)
    (hright : (heldAfter J er h₀ (st.log.take m)).Replies J er ch req.action (respond body))
    (harrived : arrived ≤ m) (hlogged : st.log[m]? = some (.request ch req)) :
    ∃ st', st.work J er t ⟨ch, req, .replies body, arrived, some m⟩ .reply = some st' ∧
      Inv J er h₀ st' := by
  have hpending : (fun u => (Function.update st.tasks t none u).bind Task.moment)
      = Function.update st.pending t none := by
    funext u
    by_cases hu : u = t
    · subst hu
      simp
    · simp [Function.update_of_ne hu, pending]
  have hlt : m < st.log.length := (List.getElem?_eq_some_iff.mp hlogged).1
  have horder := h.order.answer (i := t)
    (d := ⟨.request ch req, some (respond body), arrived, m, st.log.length⟩)
    (by simp [pending, ht]) ⟨harrived, ⟨hlt, le_rfl⟩, hlogged, _, rfl, hright⟩
  refine ⟨_, rfl, h.queries, h.allowed, h.running, h.live, fun u => ?_, ?_⟩
  · by_cases hu : u = t
    · subst hu
      simp only [Function.update_self]
      exact .idle hquiet
    · simp only [Function.update_of_ne hu]
      exact h.tasks u
  · rw [← hpending] at horder
    exact horder

theorem firstStage_fits {a : Action} {stage : Stage} (h : firstStage J a = some stage)
    (c : Catalogue) : stage.Fits J c a := by
  cases a with
  | post body =>
      obtain ⟨r, hr, rfl⟩ := Option.map_eq_some_iff.mp h
      cases r with
      | error msg => exact ⟨body, rfl, hr⟩
      | ok r => cases r <;> exact ⟨body, rfl, hr⟩
  | queryKey key plain =>
      cases h
      rfl
  | info | exit | save | showText => cases h

/-- A request arrives. -/
theorem Inv.arrive (h : Inv J er h₀ st) (ht : st.tasks t = none) {ch : Chance}
    {req : HttpRequest} {stage : Stage} (hstage : firstStage J req.action = some stage) :
    Inv J er h₀ (st.goOn t ⟨ch, req, stage, st.log.length, none⟩ stage) := by
  have hidle := h.tasks t
  rw [ht] at hidle
  cases hidle with
  | idle hquiet =>
      exact h.goOn h.queries rfl (fun _ _ => rfl) (by simp [pending, ht])
        (.waits hquiet (firstStage_fits hstage _) le_rfl)

/-- A request that has taken effect is in the log. -/
theorem Inv.logged (h : Inv J er h₀ st) {task : Task} (ht : st.tasks t = some task) {m : Nat}
    (hm : task.moment = some m) : st.log[m]? = some (.request task.ch task.req) := by
  have hsound := h.tasks t
  rw [ht] at hsound
  cases hsound with
  | waits | called => cases hm
  | checking _ _ _ _ hlogged | replies _ _ _ hlogged =>
      cases hm
      exact hlogged

theorem next_of_exists {x : Option RequestState} {st' : RequestState}
    (h : ∃ st'', x = some st'' ∧ Inv J er h₀ st'') (hx : x = some st') : Inv J er h₀ st' := by
  obtain ⟨st'', hst, hinv⟩ := h
  rw [hst, Option.some.injEq] at hx
  exact hx ▸ hinv

/-- A step of a thread keeps the invariant. -/
theorem Inv.work (h : Inv J er h₀ st) {task : Task} (ht : st.tasks t = some task)
    {e : TaskEvent} {st' : RequestState} (hw : st.work J er t task e = some st') :
    Inv J er h₀ st' := by
  have hsound := h.tasks t
  rw [ht] at hsound
  cases hsound with
  | @waits ch req stage arrived hquiet hstage harrived =>
      cases stage with
      | refuses msg =>
          cases e with
          | refuse => exact next_of_exists (h.refuse ht hquiet hstage harrived) hw
          | _ => cases hw
      | adds name frames =>
          cases e with
          | add o => exact next_of_exists (h.add ht hquiet hstage harrived o) hw
          | _ => cases hw
      | asks key plain =>
          cases e with
          | ask => exact next_of_exists (h.ask ht hquiet hstage harrived) hw
          | _ => cases hw
      | calls frames form =>
          cases e with
          | call => exact next_of_exists (h.call ht hquiet hstage harrived) hw
          | _ => cases hw
      | queries | replies => exact hstage.elim
  | called hth hform harrived =>
      cases e with
      | lookup o => exact next_of_exists (h.lookup ht hth hform harrived o) hw
      | check | finish => simp [RequestState.work, QueryState.step, hth] at hw
      | _ => cases hw
  | @checking ch req form arrived m q atCall snap cands result hth hform hlive harrived hlogged =>
      cases e with
      | check =>
          cases cands with
          | nil => simp [RequestState.work, QueryState.step, hth] at hw
          | cons p cands =>
              exact next_of_exists (h.check ht hth hform hlive harrived hlogged) hw
      | finish o =>
          cases cands with
          | nil => exact next_of_exists (h.finish ht hth hform hlive harrived hlogged o) hw
          | cons p cands => simp [RequestState.work, QueryState.step, hth] at hw
      | lookup => simp [RequestState.work, QueryState.step, hth] at hw
      | _ => cases hw
  | replies hquiet hright harrived hlogged =>
      cases e with
      | reply => exact next_of_exists (h.reply ht hquiet hright harrived hlogged) hw
      | _ => cases hw

/-- No thread waits for another, and none faults. -/
theorem Inv.exists_work (h : Inv J er h₀ st) {task : Task} (ht : st.tasks t = some task) :
    ∃ e st', st.work J er t task e = some st' := by
  have hsound := h.tasks t
  rw [ht] at hsound
  cases hsound with
  | @waits ch req stage arrived hquiet hstage harrived =>
      cases stage with
      | refuses msg => exact ⟨_, (h.refuse ht hquiet hstage harrived).imp fun _ => And.left⟩
      | adds name frames =>
          exact ⟨_, (h.add ht hquiet hstage harrived default).imp fun _ => And.left⟩
      | asks key plain => exact ⟨_, (h.ask ht hquiet hstage harrived).imp fun _ => And.left⟩
      | calls frames form => exact ⟨_, (h.call ht hquiet hstage harrived).imp fun _ => And.left⟩
      | queries | replies => exact hstage.elim
  | called hth hform harrived =>
      exact ⟨_, (h.lookup ht hth hform harrived default).imp fun _ => And.left⟩
  | @checking ch req form arrived m q atCall snap cands result hth hform hlive harrived hlogged =>
      cases cands with
      | nil =>
          exact ⟨_, (h.finish ht hth hform hlive harrived hlogged default).imp fun _ => And.left⟩
      | cons p cands =>
          exact ⟨_, (h.check ht hth hform hlive harrived hlogged).imp fun _ => And.left⟩
  | replies hquiet hright harrived hlogged =>
      exact ⟨_, (h.reply ht hquiet hright harrived hlogged).imp fun _ => And.left⟩

/-- Every step keeps the invariant. -/
theorem Inv.step (h : Inv J er h₀ st) {e : RequestEvent} {st' : RequestState}
    (hstep : st.step J er e = some st') : Inv J er h₀ st' := by
  cases e with
  | arrive t ch req =>
      cases ht : st.tasks t with
      | some task => simp [RequestState.step, ht] at hstep
      | none =>
          simp only [RequestState.step, ht] at hstep
          obtain ⟨stage, hstage, rfl⟩ := Option.map_eq_some_iff.mp hstep
          exact h.arrive ht hstage
  | work t e =>
      obtain ⟨task, ht, hw⟩ := Option.bind_eq_some_iff.mp hstep
      exact h.work ht hw

theorem Inv.of_initial (h : Initial st) : Inv J er st.holdings st := by
  have hpending : st.pending = fun _ => none := funext fun t => by rw [pending, h.tasks t]; rfl
  refine ⟨.init h.queries, ?_, ?_, ?_, fun t => ?_, ?_⟩
  · rw [h.log]
    trivial
  · rw [h.log]
    rfl
  · rw [h.log]
    rfl
  · rw [h.tasks t, h.queries.2 t]
    exact .idle rfl
  · rw [h.log, h.done, hpending]
    exact .start _ _

/-- In every interleaving of any number of requests, each in a thread of its
own:

* the log is one that a server which gets one request after another could
  have got, and the store is what the log alone leads to;
* each reply is right where its request stands in the log, and it stands
  there for a moment between its arrival and its reply;
* each place in the log belongs to one request, which was answered or is
  under way;
* a thread that has a task can always go on, whatever the others do. -/
theorem requests_in_order {st₀ : RequestState} (h₀ : Initial st₀) {es : List RequestEvent}
    (h : (system J er).run st₀ es = some st) :
    (catalogueService J er).AllowedAll st₀.holdings st.log ∧
    st.queries.vdb.catalogue = ((catalogueService J er).afterAll st₀.holdings st.log).live ∧
    (∀ d ∈ st.done, d.RightIn (catalogueService J er) st₀.holdings st.log) ∧
    (st.done.map Served.moment).Nodup ∧
    (∀ j < st.log.length, (∃ d ∈ st.done, d.moment = j) ∨
      ∃ t task, st.tasks t = some task ∧ task.moment = some j ∧
        st.log[j]? = some (.request task.ch task.req)) ∧
    ∀ t task, st.tasks t = some task → ∃ e st', st.step J er (.work t e) = some st' := by
  have hinv : Inv J er st₀.holdings st :=
    System.run_invariant (P := Inv J er st₀.holdings) (fun _ _ _ hs hstep => hs.step hstep) es
      (.of_initial h₀) h
  refine ⟨hinv.allowed, hinv.live, hinv.order.served, hinv.order.once, fun j hj => ?_,
    fun t task ht => ?_⟩
  · refine (hinv.order.nothingElse j hj).symm.imp_right fun ⟨t, hmoment⟩ => ?_
    obtain ⟨task, ht, htask⟩ := Option.bind_eq_some_iff.mp hmoment
    exact ⟨t, task, ht, htask, hinv.logged ht htask⟩
  · obtain ⟨e, st', hw⟩ := hinv.exists_work ht
    exact ⟨e, st', by rw [RequestState.step, ht]; exact hw⟩

/-- A server without videos. -/
def noVideos : RequestState := ⟨⟨VideoDB.fresh, fun _ => .idle⟩, fun _ => none, [], []⟩

/-- A client asks for `v` while another one adds it; the question is answered
first, and with the video. -/
def askWhileAdding : List RequestEvent :=
  [.arrive 0 smooth ⟨.HTTP_POST, ascii "/", ascii "add", false⟩,
    .arrive 1 smooth (HttpRequest.get (ascii "/querykeyplain/v")), .work 0 (.add default),
    .work 1 .ask, .work 1 .call, .work 1 (.lookup default), .work 1 .check,
    .work 1 (.finish default), .work 1 .reply, .work 0 .reply]

theorem requests_in_order_two : ∃ st, (system addsV default).run noVideos askWhileAdding = some st ∧
    st.done.map Served.moment = [1, 0] ∧
    ∀ d ∈ st.done, d.RightIn (catalogueService addsV default) noVideos.holdings st.log := by
  have hrun : ((system addsV default).run noVideos askWhileAdding).map
      (fun st => st.done.map Served.moment) = some [1, 0] := by decide +kernel
  obtain ⟨st, hst, hdone⟩ := Option.map_eq_some_iff.mp hrun
  have hinit : Initial noVideos := ⟨⟨VideoDB.reachable_fresh, fun _ => rfl⟩, fun _ => rfl, rfl, rfl⟩
  exact ⟨st, hst, hdone, (requests_in_order hinit hst).2.2.1⟩

end RequestState

end VideoMatch.Server
