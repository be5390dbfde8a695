/-
VideoMatch.Server.ReferenceTheorems — what a reference count counts.

`get_candidates1` takes a reference on each candidate, and the check of a
candidate drops it again, outside the mutex. So whatever the threads do, the
count of an object is the number of queries that still have to check it
(`references_exact`): it never goes below 0, and at 0 no query holds the
address. This is what a `Remove` would have to rely on.
-/
import VideoMatch.Server.ConcurrentQuery

namespace VideoMatch.Server

open VideoMatch.Cxx VideoMatch.Machine

namespace VideoDB

/-! ## Counts of a heap -/

/-- The objects have the counts `refs`. -/
def RefIs (heap : Heap DataItem) (refs : Nat → Int) : Prop :=
  ∀ p di, heap.read p = some di → di.ref = refs p

theorem RefIs.alloc {heap : Heap DataItem} {refs : Nat → Int} (h : RefIs heap refs)
    {item : DataItem} (hitem : item.ref = refs heap.next) : RefIs (heap.alloc item).1 refs := by
  intro p di hread
  by_cases hp : p = heap.next
  · subst hp
    rw [Heap.read_alloc_self] at hread
    cases hread
    exact hitem
  · rw [Heap.read_alloc_of_ne _ _ hp] at hread
    exact h p di hread

/-- A change that adds `d` to the count of one object. -/
theorem RefIs.modify {heap : Heap DataItem} {refs refs' : Nat → Int} (h : RefIs heap refs)
    {p : Nat} {f : DataItem → DataItem} (hself : ∀ di, di.ref = refs p → (f di).ref = refs' p)
    (hother : ∀ q, q ≠ p → refs' q = refs q) : RefIs (heap.modify p f) refs' := by
  intro q di hread
  by_cases hq : q = p
  · subst hq
    rw [Heap.read_modify_self] at hread
    obtain ⟨di', hread', rfl⟩ := Option.map_eq_some_iff.mp hread
    exact hself di' (h q di' hread')
  · rw [Heap.read_modify_of_ne _ _ hq] at hread
    rw [hother q hq]
    exact h q di hread

theorem RefIs.withRefs {heap : Heap DataItem} {refs : Nat → Int} (h : RefIs heap refs)
    (l : List Nat) : RefIs (withRefs heap l) fun p => refs p + l.count p := by
  intro p di hread
  rw [read_withRefs] at hread
  obtain ⟨di', hread', rfl⟩ := Option.map_eq_some_iff.mp hread
  exact congrArg (· + (l.count p : Int)) (h p di' hread')

theorem RefIs.addFramesToIndex {o : HashOrder} {s s' : VideoDB} {refs : Nat → Int} {p : Nat}
    (h : RefIs s.heap refs) (hindex : addFramesToIndex o s p = some s') :
    RefIs s'.heap refs := by
  simp only [VideoDB.addFramesToIndex, Option.bind_eq_bind, Option.bind_eq_some_iff] at hindex
  obtain ⟨item, -, heq⟩ := hindex
  cases heq
  exact h.modify (fun _ hdi => hdi) fun _ _ => rfl

/-- A new object starts without references. -/
theorem RefIs.add {o : HashOrder} {s s' : VideoDB} {refs : Nat → Int} {item : DataItem} {r : Int}
    (h : RefIs s.heap refs) (hnext : refs s.heap.next = 0)
    (hadd : add o s item = some (r, s')) : RefIs s'.heap refs := by
  cases hfind : s.db.find? item.name with
  | some p =>
      simp only [VideoDB.add, hfind, Option.some.injEq, Prod.mk.injEq] at hadd
      exact hadd.2 ▸ h
  | none =>
      simp only [VideoDB.add, hfind, Option.bind_eq_bind, Option.bind_eq_some_iff] at hadd
      obtain ⟨s₁, hindex, heq⟩ := hadd
      cases heq
      have halloc : RefIs (s.heap.alloc item.copy).1 refs := h.alloc hnext.symm
      exact RefIs.addFramesToIndex halloc hindex

/-! ## A server without queries -/

theorem RefIs.loadRecord {file : Bytes} {st st' : Loading} (h : RefIs st.vdb.heap fun _ => 0)
    (hload : loadRecord file st = some st') : RefIs st'.vdb.heap fun _ => 0 := by
  obtain ⟨vn, frames, -, -, hvdb, -⟩ := loadRecord_cases hload
  rw [hvdb]
  exact h.alloc rfl

theorem refIs_zero_of_loaded {s : VideoDB} (h : Loaded s) : RefIs s.heap fun _ => 0 := by
  obtain ⟨o, file, r, hload⟩ := h
  have hfresh : RefIs fresh.heap fun _ => 0 := nofun
  cases file with
  | none =>
      cases hload
      exact hfresh
  | some file =>
      have hfile : loadFile o file fresh = some (r, s) := hload
      simp only [loadFile, Option.bind_eq_bind, Option.bind_eq_some_iff] at hfile
      obtain ⟨sig, -, dbSize, -, kbNum, -, st, hrecords, vdb, hindex, pos, -, hend⟩ := hfile
      cases hend
      have hst := times_inv (P := fun _ (st : Loading) => RefIs st.vdb.heap fun _ => 0)
        (f := VideoDB.loadRecord file) (fun _ _ _ h hload => h.loadRecord hload)
        dbSize.toNat 0 hrecords hfresh
      exact foldlM_inv (P := fun s : VideoDB => RefIs s.heap fun _ => 0)
        (fun _ _ _ h hindex => h.addFramesToIndex hindex) _ hindex hst

theorem Reachable.refIs_zero {s : VideoDB} (h : Reachable s) : RefIs s.heap fun _ => 0 := by
  have hrun : server.Reachable s := h
  refine hrun.invariant (P := fun s => RefIs s.heap fun _ => 0)
    (fun _ h0 => refIs_zero_of_loaded h0) ?_
  intro s c s' hs hstep
  obtain ⟨r, hadd, rfl⟩ := Option.map_eq_some_iff.mp hstep
  exact hs.add rfl hadd

end VideoDB

/-! ## Queries under way -/

/-- The candidates that the query of a thread still has to check. -/
def QueryThread.holding : QueryThread → List Nat
  | .checking _ _ _ cands _ => cands
  | _ => []

namespace QueryState

/-- How often the threads in `active` hold the address `p`. -/
def held (st : QueryState) (active : Finset Nat) (p : Nat) : Int :=
  ∑ t ∈ active, ((st.threads t).holding.count p : Int)

/-- The counts are those of the threads that hold something. -/
def Counted (st : QueryState) : Prop :=
  ∃ active : Finset Nat, (∀ t, t ∉ active → (st.threads t).holding = []) ∧
    VideoDB.RefIs st.vdb.heap (st.held active)

theorem held_insert {st : QueryState} {active : Finset Nat} {t : Nat}
    (ht : t ∉ active) (hth : (st.threads t).holding = []) :
    st.held (insert t active) = st.held active := by
  funext p
  rw [held, Finset.sum_insert ht, hth]
  simp [held]

theorem threads_setThread_of_ne (st : QueryState) (vdb : VideoDB) {t u : Nat} (hu : u ≠ t)
    (th : QueryThread) : ({ st with vdb := vdb }.setThread t th).threads u = st.threads u :=
  Function.update_of_ne hu _ _

/-- One thread goes on. -/
theorem held_setThread {st : QueryState} {active : Finset Nat} {t : Nat} (ht : t ∈ active)
    (vdb : VideoDB) (th : QueryThread) :
    ({ st with vdb := vdb }.setThread t th).held active
      = fun p => st.held active p - (st.threads t).holding.count p + th.holding.count p := by
  funext p
  have hrest : ∀ u ∈ active.erase t,
      ((({ st with vdb := vdb }.setThread t th).threads u).holding.count p : Int)
        = (st.threads u).holding.count p := by
    intro u hu
    rw [threads_setThread_of_ne st vdb (Finset.ne_of_mem_erase hu)]
  have hself : ({ st with vdb := vdb }.setThread t th).threads t = th := Function.update_self _ _ _
  rw [held, held, ← Finset.add_sum_erase _ _ ht, ← Finset.add_sum_erase _ _ ht,
    Finset.sum_congr rfl hrest, hself]
  ring

/-- A step of the thread `t` that changes the counts by what the thread
takes and drops. -/
theorem Counted.setThread {st : QueryState} (h : Counted st) {t : Nat} {vdb : VideoDB}
    {th : QueryThread} (hrefs : ∀ refs, VideoDB.RefIs st.vdb.heap refs →
      VideoDB.RefIs vdb.heap fun p => refs p - (st.threads t).holding.count p
        + th.holding.count p) : Counted ({ st with vdb := vdb }.setThread t th) := by
  have hin : ∃ active : Finset Nat, t ∈ active ∧
      (∀ u, u ∉ active → (st.threads u).holding = []) ∧
      VideoDB.RefIs st.vdb.heap (st.held active) := by
    obtain ⟨active, hidle, hheap⟩ := h
    by_cases ht : t ∈ active
    · exact ⟨active, ht, hidle, hheap⟩
    · refine ⟨insert t active, Finset.mem_insert_self t active, fun u hu => ?_, ?_⟩
      · exact hidle u fun hmem => hu (Finset.mem_insert_of_mem hmem)
      · rwa [held_insert ht (hidle t ht)]
  obtain ⟨active, ht, hidle, hheap⟩ := hin
  refine ⟨active, fun u hu => ?_, ?_⟩
  · have hne : u ≠ t := fun heq => hu (heq ▸ ht)
    rw [threads_setThread_of_ne st vdb hne]
    exact hidle u hu
  · rw [held_setThread ht]
    exact hrefs _ hheap

/-! ## The steps -/

theorem Counted.of_initial {st : QueryState} (h : Initial st) : Counted st := by
  refine ⟨∅, fun t _ => by rw [h.2 t]; rfl, fun p di hread => ?_⟩
  rw [held, Finset.sum_empty]
  exact h.1.refIs_zero p di hread

/-- The next address is not held: what is held has an object. -/
theorem Inv.held_next {er : EqualRange UInt64} {st : QueryState} (h : Inv er st)
    (active : Finset Nat) : st.held active st.vdb.heap.next = 0 := by
  refine Finset.sum_eq_zero fun t _ => ?_
  rw [Int.natCast_eq_zero, List.count_eq_zero]
  intro hmem
  cases ht : st.threads t with
  | checking q atCall snap cands result =>
      rw [ht] at hmem
      obtain ⟨-, di, -, hread, -⟩ := h.waiting ht hmem
      exact absurd (Heap.lt_next_of_read hread) (lt_irrefl _)
  | _ => rw [ht] at hmem; exact nomatch hmem

theorem Counted.add {er : EqualRange UInt64} {st : QueryState} (h : Counted st) (hinv : Inv er st)
    {o : HashOrder} {item : DataItem} {r : Int} {vdb : VideoDB}
    (hadd : VideoDB.add o st.vdb item = some (r, vdb)) : Counted { st with vdb := vdb } := by
  obtain ⟨active, hidle, hheap⟩ := h
  exact ⟨active, hidle, hheap.add (hinv.held_next active) hadd⟩

/-- A lookup takes one reference on each candidate. -/
theorem Counted.lookup {er : EqualRange UInt64} {st : QueryState} (h : Counted st)
    (hinv : Inv er st) {t : Nat} {q : List UInt64} {atCall : Catalogue}
    (ht : st.threads t = .called q atCall) {o : HashOrder} {r : List Nat × VideoDB}
    (hcands : VideoDB.getCandidates1 o st.vdb q = some r) :
    Counted ({ st with vdb := r.2 }.setThread t (.checking q atCall st.vdb r.1 [])) := by
  obtain ⟨cands, hcands', -⟩ := VideoDB.getCandidates1_spec hinv.vdb o q
  rw [hcands, Option.some.injEq] at hcands'
  subst hcands'
  refine h.setThread fun refs hrefs => ?_
  rw [ht]
  simpa [QueryThread.holding] using hrefs.withRefs cands

/-- What a check of a stored object does to the heap. -/
theorem heap_checkOne {er : EqualRange UInt64} {q : List UInt64} {vdb : VideoDB} (hvdb : vdb.Inv)
    {p : Nat} {di : DataItem} (hp : (p, di) ∈ vdb.items) {result : List (Bytes × ℚ)}
    {r : List (Bytes × ℚ) × VideoDB} (hcheck : VideoDB.checkOne er q (result, vdb) p = some r) :
    r.2.heap = vdb.heap.modify p fun di => { di with ref := di.ref - 1 } := by
  have hread := (VideoDB.mem_items.mp hp).2
  have hkept : ¬ (di.ref - 1 = 0 ∧ di.deleted = true) := by simp [(hvdb.item_facts hp).2]
  simp only [VideoDB.checkOne, hread, decRef, if_neg hkept, Option.bind_eq_bind,
    Option.bind_some, Option.bind_eq_some_iff] at hcheck
  obtain ⟨score, -, heq⟩ := hcheck
  cases heq
  rfl

/-- A check drops the reference on its candidate. -/
theorem Counted.check {er : EqualRange UInt64} {st : QueryState} (h : Counted st)
    (hinv : Inv er st) {t : Nat} {q : List UInt64} {atCall : Catalogue} {snap : VideoDB} {p : Nat}
    {cands : List Nat} {result : List (Bytes × ℚ)}
    (ht : st.threads t = .checking q atCall snap (p :: cands) result)
    {r : List (Bytes × ℚ) × VideoDB}
    (hcheck : VideoDB.checkOne er q (result, st.vdb) p = some r) :
    Counted ({ st with vdb := r.2 }.setThread t (.checking q atCall snap cands r.1)) := by
  have hth := hinv.threads t
  rw [ht] at hth
  obtain ⟨-, -, hext, done, hperm, -⟩ := hth
  have hmem : p ∈ snap.candidates q := hperm.mem_iff.mp (by simp)
  obtain ⟨di, hp, -⟩ := VideoDB.mem_candidates.mp hmem
  obtain ⟨⟨di', hp'⟩, -⟩ := scoreAt_of_extends er q hext hp
  refine h.setThread fun refs hrefs => ?_
  rw [ht, heap_checkOne hinv.vdb hp' hcheck]
  refine hrefs.modify (fun di hdi => ?_) fun u hu => ?_
  · show di.ref - 1 = _
    rw [hdi, QueryThread.holding, List.count_cons_self, QueryThread.holding]
    push_cast
    ring
  · rw [QueryThread.holding, List.count_cons_of_ne (Ne.symm hu), QueryThread.holding]
    ring

theorem Counted.step {er : EqualRange UInt64} {st st' : QueryState} {e : QueryEvent}
    (h : Counted st) (hinv : Inv er st) (hstep : QueryState.step er st e = some st') :
    Counted st' := by
  cases e with
  | add o item =>
      obtain ⟨⟨r, vdb⟩, hadd, rfl⟩ := Option.map_eq_some_iff.mp hstep
      exact h.add hinv hadd
  | call t q =>
      cases ht : st.threads t with
      | idle | finished _ _ _ _ _ =>
          simp only [QueryState.step, ht, Option.some.injEq] at hstep
          subst hstep
          refine Counted.setThread h fun refs hrefs => ?_
          rw [ht]
          simpa [QueryThread.holding] using hrefs
      | _ => simp [QueryState.step, ht] at hstep
  | lookup t o =>
      cases ht : st.threads t with
      | called q atCall =>
          simp only [QueryState.step, ht] at hstep
          obtain ⟨r, hcands, rfl⟩ := Option.map_eq_some_iff.mp hstep
          exact h.lookup hinv ht hcands
      | _ => simp [QueryState.step, ht] at hstep
  | check t =>
      cases ht : st.threads t with
      | checking q atCall snap cands result =>
          cases cands with
          | nil => simp [QueryState.step, ht] at hstep
          | cons p cands =>
              simp only [QueryState.step, ht] at hstep
              obtain ⟨r, hcheck, rfl⟩ := Option.map_eq_some_iff.mp hstep
              exact h.check hinv ht hcheck
      | _ => simp [QueryState.step, ht] at hstep
  | finish t o =>
      cases ht : st.threads t with
      | checking q atCall snap cands result =>
          cases cands with
          | cons p cands => simp [QueryState.step, ht] at hstep
          | nil =>
              simp only [QueryState.step, ht, Option.some.injEq] at hstep
              subst hstep
              refine Counted.setThread h fun refs hrefs => ?_
              rw [ht]
              simpa [QueryThread.holding] using hrefs
      | _ => simp [QueryState.step, ht] at hstep

theorem counted_of_reachable {er : EqualRange UInt64} {st : QueryState}
    (h : (system er).Reachable st) : Inv er st ∧ Counted st := by
  refine h.invariant (P := fun st => Inv er st ∧ Counted st)
    (fun _ h0 => ⟨Inv.of_initial h0, Counted.of_initial h0⟩) ?_
  intro st e st' hst hstep
  exact ⟨hst.1.step hstep, hst.2.step hst.1 hstep⟩

/-- No candidate is listed twice. -/
theorem Inv.nodup_holding {er : EqualRange UInt64} {st : QueryState} (h : Inv er st) (t : Nat) :
    (st.threads t).holding.Nodup := by
  cases ht : st.threads t with
  | checking q atCall snap cands result =>
      have hth := h.threads t
      rw [ht] at hth
      obtain ⟨hsnap, -, -, done, hperm, -⟩ := hth
      exact (hperm.nodup_iff.mpr (hsnap.nodup_candidates q)).of_append_right
  | _ => exact List.nodup_nil

/-- In every interleaving of adds and queries the reference count of a
stored object is the number of queries that still have to check it. -/
theorem references_exact {er : EqualRange UInt64} {st : QueryState}
    (h : (system er).Reachable st) {p : Nat} {di : DataItem} (hp : (p, di) ∈ st.vdb.items) :
    {t | p ∈ (st.threads t).holding}.Finite ∧
      di.ref = ({t | p ∈ (st.threads t).holding} : Set Nat).ncard := by
  obtain ⟨hinv, active, hidle, hheap⟩ := counted_of_reachable h
  have hset : {t | p ∈ (st.threads t).holding}
      = ((active.filter fun t => p ∈ (st.threads t).holding : Finset Nat) : Set Nat) := by
    ext t
    rw [Finset.mem_coe, Finset.mem_filter]
    refine ⟨fun hmem => ⟨?_, hmem⟩, fun hmem => hmem.2⟩
    by_contra hout
    replace hmem : p ∈ (st.threads t).holding := hmem
    rw [hidle t hout] at hmem
    exact nomatch hmem
  refine ⟨hset ▸ Finset.finite_toSet _, ?_⟩
  rw [hset, Set.ncard_coe_finset, Finset.card_filter, hheap p di (VideoDB.mem_items.mp hp).2, held]
  push_cast
  refine Finset.sum_congr rfl fun t _ => ?_
  rw [(hinv.nodup_holding t).count]
  split <;> rfl

/-- Two queries have found the same video and have not checked it. -/
def twoLookups : List QueryEvent :=
  [.add default (DataItem.ofFrames [97] [1, 2]), .call 0 [2], .call 1 [1], .lookup 0 default,
    .lookup 1 default]

theorem references_exact_two_lookups : ∃ st di,
    (system default).run ⟨VideoDB.fresh, fun _ => .idle⟩ twoLookups = some st ∧
    (0, di) ∈ st.vdb.items ∧ di.ref = 2 ∧
    di.ref = ({t | 0 ∈ (st.threads t).holding} : Set Nat).ncard := by
  have hrun : ((system default).run ⟨VideoDB.fresh, fun _ => .idle⟩ twoLookups).map
      (fun st => st.vdb.items.map fun it => (it.1, it.2.ref)) = some [(0, 2)] := by decide +kernel
  obtain ⟨st, hst, hrefs⟩ := Option.map_eq_some_iff.mp hrun
  have hreach : (system default).Reachable st :=
    System.reachable_of_run twoLookups (.init ⟨VideoDB.reachable_fresh, fun _ => rfl⟩) hst
  have hmem : ((0, 2) : Nat × Int) ∈ st.vdb.items.map fun it => (it.1, it.2.ref) := by
    rw [hrefs]
    exact List.mem_singleton_self _
  obtain ⟨⟨p, di⟩, hp, heq⟩ := List.mem_map.mp hmem
  obtain ⟨rfl, href⟩ := Prod.mk.inj heq
  exact ⟨st, di, hst, hp, href, (references_exact hreach hp).2⟩

end QueryState

end VideoMatch.Server
