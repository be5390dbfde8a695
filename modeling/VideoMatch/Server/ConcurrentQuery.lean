/-
VideoMatch.Server.ConcurrentQuery — queries and adds of several threads.

A state is the store and, for each thread, how far its `Query` has come.
The steps are the critical sections and what runs between them:

* `add` is a whole `Add`, under the mutex;
* `call` is the beginning of a `Query`, before it takes the mutex;
* `lookup` is `get_candidates1`, under the mutex, with a reference taken
  on each candidate;
* `check` is one candidate, without the mutex: its score is computed from
  the object as it is now and the reference is dropped;
* `finish` sorts and returns.

Two ghost values go with a query: the catalogue at its call, and the
store at its lookup. The invariant says that every object stored at the
lookup is still stored with the same name, frames and count. A check then
computes what it would have computed at the lookup, so the result is that
of a sequential `Query` there (`queries_linearizable`).
-/
import VideoMatch.Server.Calls
import VideoMatch.Server.Reachable

namespace VideoMatch.Server

open VideoMatch.Cxx VideoMatch.Machine

/-- How far the `Query` of a thread has come. `atCall` is the catalogue when
it was called, `snap` the store at its lookup. -/
inductive QueryThread where
  | idle
  | called (q : List UInt64) (atCall : Catalogue)
  | checking (q : List UInt64) (atCall : Catalogue) (snap : VideoDB) (cands : List Nat)
      (result : List (Bytes × ℚ))
  | finished (q : List UInt64) (atCall : Catalogue) (snap : VideoDB) (code : Int)
      (result : List (Bytes × ℚ))

/-- The thread has returned from its query. -/
def QueryThread.done : QueryThread → Bool
  | .finished .. => true
  | _ => false

structure QueryState where
  vdb : VideoDB
  threads : Nat → QueryThread

inductive QueryEvent where
  | add (o : HashOrder) (item : DataItem)
  | call (t : Nat) (q : List UInt64)
  | lookup (t : Nat) (o : HashOrder)
  | check (t : Nat)
  | finish (t : Nat) (o : HashOrder)

namespace QueryState

/-- Thread `t` goes on as `th`. -/
def setThread (st : QueryState) (t : Nat) (th : QueryThread) : QueryState :=
  { st with threads := Function.update st.threads t th }

/-- One step; `none` if it cannot happen, or if it faults. -/
def step (er : EqualRange UInt64) (st : QueryState) : QueryEvent → Option QueryState
  | .add o item => (VideoDB.add o st.vdb item).map fun (_, vdb) => { st with vdb := vdb }
  | .call t q =>
      match st.threads t with
      | .idle => some (st.setThread t (.called q st.vdb.catalogue))
      | .finished .. => some (st.setThread t (.called q st.vdb.catalogue))
      | _ => none
  | .lookup t o =>
      match st.threads t with
      | .called q atCall =>
          (VideoDB.getCandidates1 o st.vdb q).map fun (cands, vdb) =>
            { st with vdb := vdb }.setThread t (.checking q atCall st.vdb cands [])
      | _ => none
  | .check t =>
      match st.threads t with
      | .checking q atCall snap (p :: cands) result =>
          (VideoDB.checkOne er q (result, st.vdb) p).map fun (result, vdb) =>
            { st with vdb := vdb }.setThread t (.checking q atCall snap cands result)
      | _ => none
  | .finish t o =>
      match st.threads t with
      | .checking q atCall snap [] result =>
          let result := VideoDB.sortResult o result
          some (st.setThread t (.finished q atCall snap (toInt result.length) result))
      | _ => none

/-- A server after its start, no query under way. -/
def Initial (st : QueryState) : Prop := st.vdb.Reachable ∧ ∀ t, st.threads t = .idle

/-- The interleavings of adds and queries. -/
def system (er : EqualRange UInt64) : System QueryState QueryEvent := ⟨Initial, step er⟩

/-! ## The invariant -/

/-- What holds of a thread, given the store. -/
def ThreadInv (er : EqualRange UInt64) (vdb : VideoDB) : QueryThread → Prop
  | .idle => True
  | .called _ atCall => atCall.videos ≤ vdb.catalogue.videos
  | .checking q atCall snap cands result =>
      snap.Inv ∧ atCall.videos ≤ snap.catalogue.videos ∧ snap.Extends vdb ∧
        ∃ done, (done ++ cands).Perm (snap.candidates q) ∧
          result = done.filterMap (VideoDB.scoreAt er snap q)
  | .finished q atCall snap code result =>
      snap.Inv ∧ atCall.videos ≤ snap.catalogue.videos ∧ code = toInt result.length ∧
        (result : Multiset (Bytes × ℚ)) = snap.catalogue.scan er q ∧
        result.Pairwise fun a b => b.2 ≤ a.2

structure Inv (er : EqualRange UInt64) (st : QueryState) : Prop where
  vdb : st.vdb.Inv
  threads : ∀ t, ThreadInv er st.vdb (st.threads t)

/-- A thread does not mind a store that holds more. -/
theorem ThreadInv.mono {er : EqualRange UInt64} {vdb vdb' : VideoDB} {th : QueryThread}
    (h : ThreadInv er vdb th) (hext : vdb.Extends vdb')
    (hle : vdb.catalogue.videos ≤ vdb'.catalogue.videos) : ThreadInv er vdb' th := by
  cases th with
  | idle => trivial
  | called q atCall => exact le_trans (show atCall.videos ≤ _ from h) hle
  | checking q atCall snap cands result =>
      obtain ⟨hsnap, hcall, hsnapExt, hdone⟩ := h
      exact ⟨hsnap, hcall, hsnapExt.trans hext, hdone⟩
  | finished q atCall snap code result => exact h

/-- A step changes the store for the better and one thread. -/
theorem Inv.setThread {er : EqualRange UInt64} {st : QueryState} (h : Inv er st) {vdb : VideoDB}
    (hvdb : vdb.Inv) (hext : st.vdb.Extends vdb)
    (hle : st.vdb.catalogue.videos ≤ vdb.catalogue.videos) {t : Nat} {th : QueryThread}
    (hth : ThreadInv er vdb th) : Inv er ({ st with vdb := vdb }.setThread t th) := by
  refine ⟨hvdb, fun u => ?_⟩
  show ThreadInv er vdb (Function.update st.threads t th u)
  by_cases hu : u = t
  · subst hu
    rw [Function.update_self]
    exact hth
  · rw [Function.update_of_ne hu]
    exact (h.threads u).mono hext hle

/-- The object of a candidate gives the score it gave at the lookup. -/
theorem scoreAt_of_extends (er : EqualRange UInt64) (q : List UInt64) {snap vdb : VideoDB}
    {p : Nat} {di : DataItem} (hext : snap.Extends vdb) (hp : (p, di) ∈ snap.items) :
    (∃ di', (p, di') ∈ vdb.items) ∧
      VideoDB.scoreAt er vdb q p = VideoDB.scoreAt er snap q p := by
  obtain ⟨di', hp', hsame⟩ := hext p di hp
  obtain ⟨hname, hframes, -⟩ := DataItem.of_noRef_eq hsame
  refine ⟨⟨di', hp'⟩, ?_⟩
  rw [VideoDB.scoreAt, VideoDB.scoreAt, (VideoDB.mem_items.mp hp').2, (VideoDB.mem_items.mp hp).2]
  simp only [hname, hframes]

/-- A check of a stored object succeeds: its pair is appended and only a
reference changes. -/
theorem checkOne_stored (er : EqualRange UInt64) (q : List UInt64) {vdb : VideoDB}
    (hvdb : vdb.Inv) {p : Nat} {di : DataItem} (hp : (p, di) ∈ vdb.items)
    (result : List (Bytes × ℚ)) :
    ∃ vdb', VideoDB.checkOne er q (result, vdb) p
        = some (result ++ (VideoDB.scoreAt er vdb q p).toList, vdb') ∧ vdb.SameButRefs vdb' := by
  have hread := (VideoDB.mem_items.mp hp).2
  obtain ⟨score, hscore, -⟩ := checkCandidate_total er di.frames q
  have hdec : decRef vdb.heap p
      = some (vdb.heap.modify p fun di => { di with ref := di.ref - 1 }) := by
    rw [decRef, hread]
    simp [(hvdb.item_facts hp).2]
  refine ⟨{ vdb with heap := vdb.heap.modify p fun di => { di with ref := di.ref - 1 } }, ?_,
    VideoDB.sameButRefs_modify vdb p fun _ => rfl⟩
  simp only [VideoDB.checkOne, VideoDB.scoreAt, hread, hscore, hdec, Option.bind_eq_bind,
    Option.bind_some]
  by_cases hgt : score > VideoDB.threshold <;> simp [hgt]

/-! ## The steps -/

theorem catalogue_of_sameButRefs {s s' : VideoDB} (h : s.SameButRefs s') (hs : s.Inv) :
    s'.catalogue.videos = s.catalogue.videos :=
  congrArg (fun l : List Video => (l : Multiset Video)) (h.content_eq hs)

theorem Inv.check {er : EqualRange UInt64} {st : QueryState} (h : Inv er st) {t : Nat}
    {q : List UInt64} {atCall : Catalogue} {snap : VideoDB} {p : Nat} {cands : List Nat}
    {result : List (Bytes × ℚ)} (ht : st.threads t = .checking q atCall snap (p :: cands) result) :
    ∃ st', step er st (.check t) = some st' ∧ Inv er st' := by
  have hth := h.threads t
  rw [ht] at hth
  obtain ⟨hsnap, hcall, hext, done, hperm, hresult⟩ := hth
  have hmem : p ∈ snap.candidates q := hperm.mem_iff.mp (by simp)
  obtain ⟨di, hp, -⟩ := VideoDB.mem_candidates.mp hmem
  obtain ⟨⟨di', hp'⟩, hscore⟩ := scoreAt_of_extends er q hext hp
  obtain ⟨vdb, hcheck, hrefs⟩ := checkOne_stored er q h.vdb hp' result
  refine ⟨_, by simp only [step, ht, hcheck, Option.map_some]; rfl, ?_⟩
  refine h.setThread (hrefs.inv h.vdb) (.of_sameButRefs hrefs)
    (catalogue_of_sameButRefs hrefs h.vdb).ge ⟨hsnap, hcall, hext.trans (.of_sameButRefs hrefs),
      done ++ [p], by simpa using hperm, ?_⟩
  rw [hscore, hresult, List.filterMap_append]
  cases hs : VideoDB.scoreAt er snap q p <;> simp [hs]

theorem Inv.add {er : EqualRange UInt64} {st : QueryState} (h : Inv er st) {o : HashOrder}
    {item : DataItem} {r : Int} {vdb : VideoDB}
    (hadd : VideoDB.add o st.vdb item = some (r, vdb)) : Inv er { st with vdb := vdb } := by
  obtain ⟨hinv, hle⟩ := VideoDB.add_keeps h.vdb hadd
  exact ⟨hinv, fun t => (h.threads t).mono (.of_add h.vdb hadd) hle⟩

theorem Inv.lookup {er : EqualRange UInt64} {st : QueryState} (h : Inv er st) {t : Nat}
    {q : List UInt64} {atCall : Catalogue} (ht : st.threads t = .called q atCall) {o : HashOrder}
    {r : List Nat × VideoDB} (hcands : VideoDB.getCandidates1 o st.vdb q = some r) :
    Inv er ({ st with vdb := r.2 }.setThread t (.checking q atCall st.vdb r.1 [])) := by
  have hth := h.threads t
  rw [ht] at hth
  obtain ⟨cands, hcands', hperm⟩ := VideoDB.getCandidates1_spec h.vdb o q
  rw [hcands, Option.some.injEq] at hcands'
  subst hcands'
  have hrefs := VideoDB.sameButRefs_withRefs st.vdb cands
  exact h.setThread (hrefs.inv h.vdb) (.of_sameButRefs hrefs)
    (catalogue_of_sameButRefs hrefs h.vdb).ge
    ⟨h.vdb, hth, .of_sameButRefs hrefs, [], by simpa using hperm, rfl⟩

theorem Inv.finish {er : EqualRange UInt64} {st : QueryState} (h : Inv er st) {t : Nat}
    {q : List UInt64} {atCall : Catalogue} {snap : VideoDB} {result : List (Bytes × ℚ)}
    (ht : st.threads t = .checking q atCall snap [] result) (o : HashOrder) :
    Inv er (st.setThread t (.finished q atCall snap (toInt (VideoDB.sortResult o result).length)
      (VideoDB.sortResult o result))) := by
  have hth := h.threads t
  rw [ht] at hth
  obtain ⟨hsnap, hcall, -, done, hperm, hresult⟩ := hth
  rw [List.append_nil] at hperm
  refine h.setThread h.vdb (.refl _) le_rfl
    ⟨hsnap, hcall, rfl, ?_, VideoDB.sortResult_sorted o result⟩
  rw [Multiset.coe_eq_coe.mpr (VideoDB.sortResult_perm o result), hresult,
    hsnap.filterMap_candidates er q hperm]

/-- Every step keeps the invariant. -/
theorem Inv.step {er : EqualRange UInt64} {st st' : QueryState} {e : QueryEvent} (h : Inv er st)
    (hstep : QueryState.step er st e = some st') : Inv er st' := by
  cases e with
  | add o item =>
      obtain ⟨⟨r, vdb⟩, hadd, rfl⟩ := Option.map_eq_some_iff.mp hstep
      exact h.add hadd
  | call t q =>
      have hcalled : Inv er (st.setThread t (.called q st.vdb.catalogue)) :=
        h.setThread h.vdb (.refl _) le_rfl (le_refl st.vdb.catalogue.videos)
      cases ht : st.threads t <;> simp only [QueryState.step, ht] at hstep <;> cases hstep <;>
        exact hcalled
  | lookup t o =>
      cases ht : st.threads t with
      | called q atCall =>
          simp only [QueryState.step, ht] at hstep
          obtain ⟨r, hcands, rfl⟩ := Option.map_eq_some_iff.mp hstep
          exact h.lookup ht hcands
      | _ => simp [QueryState.step, ht] at hstep
  | check t =>
      cases ht : st.threads t with
      | checking q atCall snap cands result =>
          cases cands with
          | nil => simp [QueryState.step, ht] at hstep
          | cons p cands =>
              obtain ⟨st'', hcheck, hinv⟩ := h.check ht
              rw [hcheck] at hstep
              cases hstep
              exact hinv
      | _ => simp [QueryState.step, ht] at hstep
  | finish t o =>
      cases ht : st.threads t with
      | checking q atCall snap cands result =>
          cases cands with
          | cons p cands => simp [QueryState.step, ht] at hstep
          | nil =>
              simp only [QueryState.step, ht, Option.some.injEq] at hstep
              exact hstep ▸ h.finish ht o
      | _ => simp [QueryState.step, ht] at hstep

theorem Inv.of_initial {er : EqualRange UInt64} {st : QueryState} (h : Initial st) : Inv er st :=
  ⟨h.1.inv, fun t => by rw [h.2 t]; trivial⟩

theorem inv_of_reachable {er : EqualRange UInt64} {st : QueryState}
    (h : (system er).Reachable st) : Inv er st :=
  h.invariant (fun _ h0 => Inv.of_initial h0)
    fun s e s' (hs : Inv er s) (hstep : step er s e = some s') => hs.step hstep

/-- A finished query has the result of a sequential one at its lookup. -/
theorem Inv.finished {er : EqualRange UInt64} {st : QueryState} (h : Inv er st) {t : Nat}
    {q : List UInt64} {atCall : Catalogue} {snap : VideoDB} {code : Int}
    {result : List (Bytes × ℚ)} (ht : st.threads t = .finished q atCall snap code result) :
    snap.Inv ∧ atCall.videos ≤ snap.catalogue.videos ∧
      ∀ o, ∃ code' result', VideoDB.queryFrames er o snap q [] = some (code', result', snap) ∧
        (Obs.answer code result).Same (.answer code' result') := by
  have hth := h.threads t
  rw [ht] at hth
  obtain ⟨hsnap, hcall, hcode, hscan, hsorted⟩ := hth
  refine ⟨hsnap, hcall, fun o => ?_⟩
  obtain ⟨out, hquery, hout, hsorted'⟩ := VideoDB.queryFrames_spec hsnap er o q []
  rw [Multiset.coe_nil, Multiset.zero_add] at hout
  have hperm := Multiset.coe_eq_coe.mp (hscan.trans hout.symm)
  refine ⟨_, out, hquery, ?_⟩
  rw [hcode, hperm.length_eq]
  exact .answer hperm (map_snd_eq_of_sorted hperm hsorted hsorted')

/-- A candidate that waits for its check is as it was at the lookup. -/
theorem Inv.waiting {er : EqualRange UInt64} {st : QueryState} (h : Inv er st) {t : Nat}
    {q : List UInt64} {atCall : Catalogue} {snap : VideoDB} {cands : List Nat}
    {result : List (Bytes × ℚ)} (ht : st.threads t = .checking q atCall snap cands result)
    {p : Nat} (hp : p ∈ cands) :
    ∃ di di', snap.heap.read p = some di ∧ st.vdb.heap.read p = some di' ∧
      di'.name = di.name ∧ di'.frames = di.frames ∧ di'.uniqFrmCnt = di.uniqFrmCnt := by
  have hth := h.threads t
  rw [ht] at hth
  obtain ⟨-, -, hext, done, hperm, -⟩ := hth
  have hmem : p ∈ snap.candidates q := hperm.mem_iff.mp (List.mem_append_right _ hp)
  obtain ⟨di, hdi, -⟩ := VideoDB.mem_candidates.mp hmem
  obtain ⟨di', hdi', hsame⟩ := hext p di hdi
  obtain ⟨hname, hframes, hcnt, -⟩ := DataItem.of_noRef_eq hsame
  exact ⟨di, di', (VideoDB.mem_items.mp hdi).2, (VideoDB.mem_items.mp hdi').2, hname, hframes, hcnt⟩

/-- In every interleaving of adds and queries:

* the result of a query is that of a sequential `Query` on the store at its
  lookup, up to the order of equal scores, and that store is complete and
  holds everything that was stored when the query was called;
* until a candidate has been checked its object is there, with the name,
  the frames and the count it had at the lookup, and the check succeeds. -/
theorem queries_linearizable (er : EqualRange UInt64) {st : QueryState}
    (h : (system er).Reachable st) :
    (∀ t q atCall snap code result, st.threads t = .finished q atCall snap code result →
      snap.Inv ∧ atCall.videos ≤ snap.catalogue.videos ∧
      ∀ o, ∃ code' result', VideoDB.queryFrames er o snap q [] = some (code', result', snap) ∧
        (Obs.answer code result).Same (.answer code' result')) ∧
    ∀ t q atCall snap cands result, st.threads t = .checking q atCall snap cands result →
      (∀ p ∈ cands, ∃ di di', snap.heap.read p = some di ∧ st.vdb.heap.read p = some di' ∧
        di'.name = di.name ∧ di'.frames = di.frames ∧ di'.uniqFrmCnt = di.uniqFrmCnt) ∧
      (cands ≠ [] → (step er st (.check t)).isSome) := by
  have hinv := inv_of_reachable h
  refine ⟨fun t q atCall snap code result ht => hinv.finished ht,
    fun t q atCall snap cands result ht => ⟨fun p hp => hinv.waiting ht hp, fun hne => ?_⟩⟩
  cases cands with
  | nil => exact absurd rfl hne
  | cons p cands =>
      obtain ⟨st', hcheck, -⟩ := hinv.check ht
      rw [hcheck]
      rfl

/-- A video is added and a query for one of its hashes runs, with another
`Add` between its lookup and its check. -/
def oneQuery : List QueryEvent :=
  [.add default (DataItem.ofFrames [97] [1, 2]), .call 0 [2], .lookup 0 default,
    .add default (DataItem.ofFrames [98] [2]), .check 0, .finish 0 default]

theorem queries_linearizable_one_query : ∃ st q atCall snap code result,
    (system default).run ⟨VideoDB.fresh, fun _ => .idle⟩ oneQuery = some st ∧
    st.threads 0 = .finished q atCall snap code result ∧
    ∃ code' result', VideoDB.queryFrames default default snap q [] = some (code', result', snap) ∧
      (Obs.answer code result).Same (.answer code' result') := by
  have hrun : ((system default).run ⟨VideoDB.fresh, fun _ => .idle⟩ oneQuery).map
      (fun st => (st.threads 0).done) = some true := by decide +kernel
  obtain ⟨st, hst, hdone⟩ := Option.map_eq_some_iff.mp hrun
  have hreach : (system default).Reachable st :=
    System.reachable_of_run oneQuery (.init ⟨VideoDB.reachable_fresh, fun _ => rfl⟩) hst
  cases ht : st.threads 0 with
  | finished q atCall snap code result =>
      obtain ⟨-, -, hsame⟩ := (queries_linearizable default hreach).1 0 q atCall snap code result ht
      exact ⟨st, q, atCall, snap, code, result, hst, ht, hsame default⟩
  | _ => simp [ht, QueryThread.done] at hdone

end QueryState

end VideoMatch.Server
