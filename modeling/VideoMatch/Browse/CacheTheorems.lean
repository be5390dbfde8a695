/-
VideoMatch.Browse.CacheTheorems — the representation of the cache.

`Represents vm l` says that the cache `vm` holds the items `l`, most
recently used first: the objects are linked in this order from `head` to
`tail`, `data` has an entry for each and for nothing else, and there are
no other objects. Each operation is an equation about `l`: `linkFront`
puts an item in front, `evict` drops the last one, `moveToFront` moves one
to the front, and the eviction loop keeps the longest prefix that fits
(`checkCacheOverflow_spec`).

`CacheStep` are the steps a run of lookups is made of. The representation
and the bound hold after every one of them (`cache_represented`).
-/
import VideoMatch.Browse.VideoManager
import VideoMatch.Machine.Recency
import VideoMatch.Machine.Transition

namespace VideoMatch.Browse

open VideoMatch.Cxx VideoMatch.Machine VideoMatch.Machine.Recency

/-! ## The representation -/

/-- What an item holds besides its links. -/
structure Entry where
  name : Bytes
  frames : StdMap Int Bytes
  size : Nat

def DataItem.entry (di : DataItem) : Entry := ⟨di.name, di.frames, di.size⟩

namespace VideoManager

/-- The cache holds the items `l`, the most recently used one first. -/
structure Represents (vm : VideoManager) (l : List (Nat × Entry)) : Prop where
  linked : Segment DataItem.prev DataItem.next vm.heap none (l.map Prod.fst) none
  nodup : (l.map Prod.fst).Nodup
  head : vm.head = (l.map Prod.fst).head?
  tail : vm.tail = (l.map Prod.fst).getLast?
  entry : ∀ p c, (p, c) ∈ l → (vm.heap.read p).map DataItem.entry = some c
  data : vm.data.entries.Perm (l.map fun it => (it.2.name, it.1))
  live : ∀ p, (vm.heap.read p).isSome → p ∈ l.map Prod.fst

/-- The weight of an item. -/
def sizeOf (it : Nat × Entry) : Nat := it.2.size

theorem represents_new (cacheSize : Nat) (rawPath : StdMap Bytes Bytes) :
    Represents { cacheSize := cacheSize, rawPath := rawPath } [] := by
  refine ⟨trivial, List.nodup_nil, rfl, rfl, by simp, by simp, fun p h => ?_⟩
  simp [Heap.read, Heap.empty] at h

namespace Represents

variable {vm : VideoManager} {l : List (Nat × Entry)}

theorem read (h : Represents vm l) {p : Nat} {c : Entry} (hp : (p, c) ∈ l) :
    ∃ di, vm.heap.read p = some di ∧ di.entry = c :=
  Option.map_eq_some_iff.mp (h.entry p c hp)

/-- No key is cached twice. -/
theorem nodup_names (h : Represents vm l) : (l.map fun it => it.2.name).Nodup := by
  have hperm := h.data.map Prod.fst
  rw [List.map_map] at hperm
  exact hperm.nodup_iff.mp vm.data.nodup

theorem mem_data (h : Represents vm l) {k : Bytes} {p : Nat} :
    (k, p) ∈ vm.data.entries ↔ ∃ c, (p, c) ∈ l ∧ c.name = k := by
  rw [h.data.mem_iff, List.mem_map]
  constructor
  · intro h
    obtain ⟨⟨q, c⟩, hmem, heq⟩ := h
    cases heq
    exact ⟨c, hmem, rfl⟩
  · intro h
    obtain ⟨c, hmem, rfl⟩ := h
    exact ⟨(p, c), hmem, rfl⟩

theorem find_eq_some (h : Represents vm l) {k : Bytes} {p : Nat} :
    vm.data.find? k = some p ↔ ∃ c, (p, c) ∈ l ∧ c.name = k := by
  rw [vm.data.find?_eq_some_iff, h.mem_data]

theorem find_eq_none (h : Represents vm l) {k : Bytes} :
    vm.data.find? k = none ↔ k ∉ l.map fun it => it.2.name := by
  have hperm := h.data.map Prod.fst
  rw [List.map_map] at hperm
  rw [vm.data.find?_eq_none_iff, hperm.mem_iff]
  rfl

theorem length_data (h : Represents vm l) : vm.data.entries.length = l.length := by
  rw [h.data.length_eq, List.length_map]

/-- `get_size` is the total of the sizes. -/
theorem getSize_eq (h : Represents vm l) : vm.getSize = some (total sizeOf l) := by
  have hfold : ∀ (es : List (Bytes × Nat)) (n : Nat),
      (∀ e ∈ es, ∃ di, vm.heap.read e.2 = some di) →
      es.foldlM (fun ret i => (vm.heap.read i.2).map fun di => ret + di.size) n
        = some (n + (es.map fun e => ((vm.heap.read e.2).map DataItem.size).getD 0).sum) := by
    intro es
    induction es with
    | nil => intro n _; simp
    | cons e es ih =>
        intro n hread
        obtain ⟨di, hdi⟩ := hread e (by simp)
        rw [List.foldlM_cons, hdi, Option.map_some, Option.bind_eq_bind, Option.bind_some,
          ih _ fun e' he' => hread e' (List.mem_cons_of_mem _ he')]
        simp [hdi, Nat.add_assoc]
  have hreads : ∀ e ∈ vm.data.entries, ∃ di, vm.heap.read e.2 = some di := by
    intro e he
    obtain ⟨c, hc, -⟩ := h.mem_data.mp he
    obtain ⟨di, hdi, -⟩ := h.read hc
    exact ⟨di, hdi⟩
  rw [getSize, hfold _ _ hreads, Nat.zero_add, (h.data.map _).sum_eq, List.map_map, total]
  refine congrArg (fun l => some (List.sum l)) (List.map_congr_left fun it hit => ?_)
  obtain ⟨di, hdi, hentry⟩ := h.read hit
  simp [hdi, sizeOf, ← hentry, DataItem.entry]

end Represents

/-! ## Eviction -/

/-- Erasing the name of the last item leaves the entries of the others. -/
theorem erase_last {l : List (Nat × Entry)} {p : Nat} {c : Entry}
    (hnodup : ((l ++ [(p, c)]).map fun it => it.2.name).Nodup) :
    ((l ++ [(p, c)]).map fun it => (it.2.name, it.1)).filter (fun e => e.1 ≠ c.name)
      = l.map fun it => (it.2.name, it.1) := by
  rw [List.map_append, List.nodup_append] at hnodup
  obtain ⟨-, -, hdisj⟩ := hnodup
  rw [List.map_append, List.filter_append]
  have hlast : ([(p, c)].map fun it : Nat × Entry => (it.2.name, it.1)).filter
      (fun e => e.1 ≠ c.name) = [] := by simp
  rw [hlast, List.append_nil, List.filter_eq_self]
  intro e he
  obtain ⟨it, hit, rfl⟩ := List.mem_map.mp he
  have hne := hdisj _ (List.mem_map_of_mem (f := fun it : Nat × Entry => it.2.name) hit) c.name
    (by simp)
  simpa using hne

/-- The last item goes. -/
theorem evict_spec {vm : VideoManager} {l : List (Nat × Entry)} {p : Nat} {c : Entry}
    (h : Represents vm (l ++ [(p, c)])) :
    ∃ vm', evict vm p = some vm' ∧ Represents vm' l ∧ vm'.cacheSize = vm.cacheSize ∧
      vm'.rawPath = vm.rawPath := by
  have hlinked := h.linked
  have hnodup := h.nodup
  have htail := h.tail
  have hhead := h.head
  simp only [List.map_append, List.map_cons, List.map_nil] at hlinked hnodup htail hhead
  rw [List.getLast?_concat] at htail
  obtain ⟨hinit, ⟨di, hdi, hprev, -⟩, -⟩ := (segment_append _).mp hlinked
  rw [Option.or_none] at hprev
  have hnot : p ∉ l.map Prod.fst := fun hmem =>
    (List.disjoint_of_nodup_append hnodup) hmem (by simp)
  obtain ⟨heap, hstore, hseg, hrelinks⟩ := hinit.storeIf_next none (g := DataItem.entry)
    (f := fun x => { x with next := none }) (List.nodup_append.mp hnodup).1
    (fun _ => rfl) (fun _ => rfl) (fun _ => rfl)
  have hdi' : heap.read p = some di := by rw [hrelinks.frame p hnot, hdi]
  have hname : di.name = c.name := by
    have hentry := h.entry p c (by simp)
    rw [hdi] at hentry
    exact congrArg Entry.name (Option.some.inj hentry)
  have hevict : vm.evict p = some { vm with
      heap := heap.free p
      head := if vm.head = vm.tail then none else vm.head
      tail := (l.map Prod.fst).getLast?
      data := vm.data.erase di.name } := by
    simp only [evict, hdi, hprev, hstore, hdi', Option.bind_eq_bind, Option.bind_some]
  refine ⟨_, hevict, ?_, rfl, rfl⟩
  refine ⟨?_, (List.nodup_append.mp hnodup).1, ?_, rfl, fun q c' hq => ?_, ?_, fun q hq => ?_⟩
  · exact hseg.congr fun q hq => heap.read_free_of_ne (ne_of_mem_of_not_mem hq hnot)
  · show (if vm.head = vm.tail then none else vm.head) = _
    rw [htail, hhead]
    cases hl : l.map Prod.fst with
    | nil => simp
    | cons q qs =>
        have hne : q ≠ p := ne_of_mem_of_not_mem (by rw [hl]; simp) hnot
        simp [hne]
  · have hne : q ≠ p := ne_of_mem_of_not_mem (List.mem_map_of_mem hq) hnot
    show ((heap.free p).read q).map DataItem.entry = _
    rw [heap.read_free_of_ne hne, hrelinks.payload, h.entry q c' (List.mem_append_left _ hq)]
  · show (vm.data.erase di.name).entries.Perm _
    rw [UnorderedMap.entries_erase, hname, ← erase_last h.nodup_names]
    exact h.data.filter _
  · have hne : q ≠ p := by
      intro heq
      subst heq
      simp at hq
    have hread : (vm.heap.read q).isSome := by
      rw [← hrelinks.isSome_read, ← heap.read_free_of_ne hne]
      exact hq
    have hmem := h.live q hread
    simp only [List.map_append, List.map_cons, List.map_nil, List.mem_append,
      List.mem_singleton] at hmem
    exact hmem.resolve_right hne

/-- The eviction loop ends, with the longest prefix that fits. -/
theorem checkCacheOverflow_spec : ∀ (fuel : Nat) {vm : VideoManager} {l : List (Nat × Entry)},
    Represents vm l → l.length < fuel →
    ∃ vm', checkCacheOverflow fuel vm = some vm' ∧ Represents vm' (keep sizeOf vm.cacheSize l) ∧
      vm'.cacheSize = vm.cacheSize ∧ vm'.rawPath = vm.rawPath := by
  intro fuel
  induction fuel with
  | zero => intro vm l _ hlt; omega
  | succ fuel ih =>
      intro vm l h hlt
      simp only [checkCacheOverflow, h.getSize_eq, Option.bind_eq_bind, Option.bind_some, h.tail]
      rcases List.eq_nil_or_concat l with rfl | ⟨l, ⟨p, c⟩, rfl⟩
      · exact ⟨vm, rfl, h, rfl, rfl⟩
      · rw [List.concat_eq_append] at h hlt ⊢
        have hlast : ((l ++ [(p, c)]).map Prod.fst).getLast? = some p := by simp
        rw [hlast]
        by_cases hover : total sizeOf (l ++ [(p, c)]) > vm.cacheSize
        · obtain ⟨vm₁, hevict, h₁, hsize, hraw⟩ := evict_spec h
          obtain ⟨vm', hrest, h', hsize', hraw'⟩ := ih h₁ (by simp at hlt; omega)
          refine ⟨vm', ?_, ?_, hsize'.trans hsize, hraw'.trans hraw⟩
          · simp only [if_pos hover, hevict, Option.bind_some, hrest]
          · rw [keep_concat hover, ← hsize]
            exact h'
        · refine ⟨vm, by simp only [if_neg hover], ?_, rfl, rfl⟩
          rw [keep_eq_self (by omega)]
          exact h

/-! ## Loading -/

/-- A new item goes to the front. -/
theorem linkFront_spec {vm : VideoManager} {l : List (Nat × Entry)} (h : Represents vm l)
    {key : Bytes} (hnew : vm.data.find? key = none) (frames : StdMap Int Bytes) (size : Nat) :
    ∃ vm' p, linkFront vm key frames size = some vm' ∧
      Represents vm' ((p, ⟨key, frames, size⟩) :: l) ∧ vm'.cacheSize = vm.cacheSize ∧
      vm'.rawPath = vm.rawPath := by
  obtain ⟨item, hitem⟩ : ∃ item : DataItem, item =
    { name := key, frames := frames, size := size, prev := none, next := vm.head } := ⟨_, rfl⟩
  have hfresh : vm.heap.next ∉ l.map Prod.fst := by
    intro hmem
    obtain ⟨a, ha⟩ := h.linked.read hmem
    exact absurd (Heap.lt_next_of_read ha) (lt_irrefl _)
  have hold : ∀ q, q ≠ vm.heap.next → (vm.heap.alloc item).1.read q = vm.heap.read q :=
    fun q hq => vm.heap.read_alloc_of_ne item hq
  have hseg : Segment DataItem.prev DataItem.next (vm.heap.alloc item).1 none
      (l.map Prod.fst) none :=
    h.linked.congr fun q hq => hold q (ne_of_mem_of_not_mem hq hfresh)
  obtain ⟨heap, hstore, hseg', hrelinks⟩ := hseg.storeIf_prev (some vm.heap.next)
    (g := DataItem.entry) (f := fun x => { x with prev := some vm.heap.next }) h.nodup
    (fun _ => rfl) (fun _ => rfl) (fun _ => rfl)
  rw [← h.head] at hstore
  have hread : heap.read vm.heap.next = some item := by
    rw [hrelinks.frame _ hfresh, Heap.read_alloc_self]
  have hlink : vm.linkFront key frames size = some { vm with
      heap := heap
      head := some vm.heap.next
      tail := vm.tail.or (some vm.heap.next)
      data := vm.data.assign key vm.heap.next } := by
    simp only [linkFront, ← hitem, Heap.alloc_snd, hstore, Option.bind_eq_bind, Option.bind_some]
  refine ⟨_, vm.heap.next, hlink, ?_, rfl, rfl⟩
  refine ⟨⟨⟨item, hread, by rw [hitem], ?_⟩, hseg'⟩, List.nodup_cons.mpr ⟨hfresh, h.nodup⟩, rfl, ?_,
    fun q c hq => ?_, ?_, fun q hq => ?_⟩
  · rw [hitem, h.head, Option.or_none]
  · show vm.tail.or (some vm.heap.next) = _
    rw [h.tail, List.map_cons, List.getLast?_cons]
    cases (l.map Prod.fst).getLast? <;> rfl
  · rcases List.mem_cons.mp hq with heq | hq
    · cases heq
      show (heap.read vm.heap.next).map DataItem.entry = _
      rw [hread, hitem]
      rfl
    · show (heap.read q).map DataItem.entry = _
      rw [hrelinks.payload, hold q (ne_of_mem_of_not_mem (List.mem_map_of_mem hq) hfresh),
        h.entry q c hq]
  · show (vm.data.assign key vm.heap.next).entries.Perm _
    rw [UnorderedMap.entries_assign_of_none _ _ hnew, List.map_cons]
    exact (List.perm_append_singleton _ _).trans (h.data.cons _)
  · by_cases heq : q = vm.heap.next
    · simp [heq]
    · have hq' : (vm.heap.read q).isSome := by
        rw [← hold q heq, ← hrelinks.isSome_read]
        exact hq
      exact List.mem_cons_of_mem _ (h.live q hq')

/-! ## Move to front -/

/-- The splice on the pointers alone: `p`, between the segments `as` and
`bs`, becomes the first object. -/
theorem moveToFront_heap {heap : Heap DataItem} {as bs : List Nat} {p x : Nat}
    (hseg : Segment DataItem.prev DataItem.next heap none (as ++ p :: bs) none)
    (hnodup : (as ++ p :: bs).Nodup) (hx : as.head? = some x) :
    ∃ item heap₁ heap₂ heap₃ heap₄, heap.read p = some item ∧ item.prev = as.getLast? ∧
      heap.storeIf item.next (fun x => { x with prev := item.prev }) = some heap₁ ∧
      heap₁.storeIf item.prev (fun x => { x with next := item.next }) = some heap₂ ∧
      heap₂.store p (fun y => { y with prev := none, next := some x }) = some heap₃ ∧
      heap₃.store x (fun y => { y with prev := some p }) = some heap₄ ∧
      Segment DataItem.prev DataItem.next heap₄ none (p :: (as ++ bs)) none ∧
      Relinks DataItem.entry (as ++ p :: bs) heap heap₄ := by
  obtain ⟨has, ⟨item, hitem, hprev, hnext⟩, hbs⟩ := (segment_append as).mp hseg
  rw [Option.or_none] at hprev hnext
  obtain ⟨hnodupA, hnodupB, hdisj⟩ := List.nodup_append'.mp hnodup
  rw [List.nodup_cons] at hnodupB
  have hpA : p ∉ as := fun hmem => hdisj hmem (by simp)
  have hdisjAB : List.Disjoint as bs := fun q hq hq' => hdisj hq (List.mem_cons_of_mem _ hq')
  -- the two neighbours of `p` are linked to each other
  obtain ⟨heap₁, h₁, hbs₁, hrel₁⟩ := hbs.storeIf_prev as.getLast?
    (g := DataItem.entry) (f := fun x => { x with prev := item.prev }) hnodupB.2
    (fun _ => hprev) (fun _ => rfl) (fun _ => rfl)
  have has₁ := hrel₁.segment has hdisjAB.symm
  obtain ⟨heap₂, h₂, has₂, hrel₂⟩ := has₁.storeIf_next bs.head?
    (g := DataItem.entry) (f := fun x => { x with next := item.next }) hnodupA
    (fun _ => rfl) (fun _ => hnext) (fun _ => rfl)
  have hbs₂ := hrel₂.segment hbs₁ hdisjAB
  have hitem₂ : heap₂.read p = some item := by
    rw [hrel₂.frame p hpA, hrel₁.frame p hnodupB.1, hitem]
  -- then `p` goes in front of the old head
  have h₃ := Heap.store_eq hitem₂ fun y => { y with prev := none, next := some x }
  have has₃ := has₂.modify_of_not_mem (fun y => { y with prev := none, next := some x }) hpA
  have hbs₃ := hbs₂.modify_of_not_mem (fun y => { y with prev := none, next := some x }) hnodupB.1
  have hrel₃ : Relinks DataItem.entry [p] heap₂
      (heap₂.modify p fun y => { y with prev := none, next := some x }) :=
    .modify (by simp) fun _ => rfl
  obtain ⟨heap₄, h₄, has₄, hrel₄⟩ := has₃.storeIf_prev (some p)
    (g := DataItem.entry) (f := fun x => { x with prev := some p }) hnodupA
    (fun _ => rfl) (fun _ => rfl) (fun _ => rfl)
  have hbs₄ := hrel₄.segment hbs₃ hdisjAB
  rw [hx] at h₄
  refine ⟨item, heap₁, heap₂, _, heap₄, hitem, hprev, ?_, ?_, h₃, h₄, ⟨?_, ?_⟩, ?_⟩
  · rw [hnext]; exact h₁
  · rw [hprev]; exact hprev ▸ h₂
  · refine ⟨{ item with prev := none, next := some x }, ?_, rfl, ?_⟩
    · rw [hrel₄.frame p hpA, Heap.read_modify_self, hitem₂, Option.map_some]
    · simp [hx]
  · refine (segment_append as).mpr ⟨by rwa [Option.or_none], ?_⟩
    obtain ⟨y, hy⟩ : ∃ y, as.getLast? = some y := by
      cases as with
      | nil => simp at hx
      | cons a as => exact ⟨_, List.getLast?_eq_some_getLast (by simp)⟩
    rw [hy] at hbs₄ ⊢
    exact hbs₄
  · constructor
    · intro q hq
      simp only [List.mem_append, List.mem_cons, not_or] at hq
      rw [hrel₄.frame q hq.1, hrel₃.frame q (by simpa using hq.2.1), hrel₂.frame q hq.1,
        hrel₁.frame q hq.2.2]
    · intro q
      rw [hrel₄.payload, hrel₃.payload, hrel₂.payload, hrel₁.payload]

/-- The new tail: the predecessor of `p` if `p` was the tail. -/
theorem tail_after_move {as bs : List Nat} {p : Nat} (hnodup : (as ++ p :: bs).Nodup)
    (has : as ≠ []) :
    (if some p = (as ++ p :: bs).getLast? then as.getLast?
      else (as ++ p :: bs).getLast?).or (some p) = (p :: (as ++ bs)).getLast? := by
  cases bs with
  | nil =>
      have hlast := List.getLast?_eq_some_getLast has
      simp [List.getLast?_cons, hlast]
  | cons b bs =>
      have hlast : (b :: bs).getLast? = some ((b :: bs).getLast (by simp)) :=
        List.getLast?_eq_some_getLast _
      have hne : p ≠ (b :: bs).getLast (by simp) := by
        intro heq
        obtain ⟨-, hnodupB, -⟩ := List.nodup_append'.mp hnodup
        exact (List.nodup_cons.mp hnodupB).1 (heq ▸ List.getLast_mem _)
      have hend : (as ++ p :: b :: bs).getLast? = some ((b :: bs).getLast (by simp)) := by
        rw [List.getLast?_append, List.getLast?_cons_cons, hlast]
        rfl
      have hneq : ¬ some p = some ((b :: bs).getLast (by simp)) :=
        fun heq => hne (Option.some.inj heq)
      rw [hend, if_neg hneq, List.getLast?_cons, List.getLast?_append, hlast]
      rfl

/-- `Move To Front`, for an item anywhere in the list. -/
theorem moveToFront_spec {vm : VideoManager} {xs ys : List (Nat × Entry)} {p : Nat} {c : Entry}
    (h : Represents vm (xs ++ (p, c) :: ys)) :
    ∃ vm', moveToFront vm p = some vm' ∧ Represents vm' ((p, c) :: (xs ++ ys)) ∧
      vm'.cacheSize = vm.cacheSize ∧ vm'.rawPath = vm.rawPath := by
  cases xs with
  | nil =>
      have hhead : some p = vm.head := by rw [h.head]; rfl
      exact ⟨vm, by rw [moveToFront, if_pos hhead], h, rfl, rfl⟩
  | cons x xs =>
      have hlinked := h.linked
      have hnodup := h.nodup
      rw [List.map_append, List.map_cons] at hlinked hnodup
      obtain ⟨item, heap₁, heap₂, heap₃, heap₄, hitem, hprev, h₁, h₂, h₃, h₄, hseg, hrel⟩ :=
        moveToFront_heap hlinked hnodup (x := x.1) rfl
      have hpx : p ≠ x.1 := by
        intro heq
        obtain ⟨-, -, hdisj⟩ := List.nodup_append'.mp hnodup
        exact hdisj (a := p) (by simp [heq]) (by simp)
      have hhead : vm.head = some x.1 := by rw [h.head]; rfl
      have hmove : moveToFront vm p = some { vm with
          heap := heap₄
          head := some p
          tail := (if some p = vm.tail then item.prev else vm.tail).or (some p) } := by
        have hne : ¬ some p = some x.1 := fun heq => hpx (Option.some.inj heq)
        simp only [moveToFront, hhead, if_neg hne, hitem, h₁, h₂, h₃, h₄, Option.bind_eq_bind,
          Option.bind_some]
      have hperm : ((p, c) :: (x :: xs ++ ys)).Perm (x :: xs ++ (p, c) :: ys) :=
        List.perm_middle.symm
      refine ⟨_, hmove, ?_, rfl, rfl⟩
      refine ⟨?_, ?_, rfl, ?_, fun q c' hq => ?_, ?_, fun q hq => ?_⟩
      · rw [List.map_cons, List.map_append]
        exact hseg
      · rw [(hperm.map Prod.fst).nodup_iff]
        exact h.nodup
      · show (if some p = vm.tail then item.prev else vm.tail).or (some p) = _
        rw [hprev, h.tail]
        simpa using tail_after_move hnodup (by simp)
      · show (heap₄.read q).map DataItem.entry = _
        rw [hrel.payload, h.entry q c' (hperm.mem_iff.mp hq)]
      · exact h.data.trans (hperm.symm.map _)
      · rw [(hperm.map Prod.fst).mem_iff]
        refine h.live q ?_
        rw [← hrel.isSome_read]
        exact hq

/-! ## What the frames hold -/

/-- The bytes in all frames of a video. -/
def held (frames : StdMap Int Bytes) : Nat := (frames.entries.map fun e => e.2.length).sum

/-- The size of an item covers its frames. A file whose number was read
before is counted again and replaces the frame. -/
def Covers (it : Nat × Entry) : Prop := held it.2.frames ≤ it.2.size

theorem readFile_held {st st' : StdMap Int Bytes × Nat} {e : DirEntry}
    (h : readFile st e = some st') (hst : held st.1 ≤ st.2) : held st'.1 ≤ st'.2 := by
  unfold readFile at h
  split at h
  · split at h
    · cases h; exact hst
    · next content _ =>
        dsimp only at h
        split at h
        · cases h
        · split at h
          · cases h; exact hst
          · cases h
            have hassign := st.1.sum_assign_le (atoi e.dName)
              (content.take (toInt content.length).toNat) List.length
            have htake := List.length_take_le (toInt content.length).toNat content
            simp only [held] at hst ⊢
            omega
  · cases h; exact hst

theorem readFiles_held {l : Listing} {frames : StdMap Int Bytes} {size : Nat}
    (h : readFiles l = some (frames, size)) : held frames ≤ size := by
  have hfold : ∀ (es : List DirEntry) {st st' : StdMap Int Bytes × Nat},
      es.foldlM readFile st = some st' → held st.1 ≤ st.2 → held st'.1 ≤ st'.2 := by
    intro es
    induction es with
    | nil => intro st st' h hst; cases h; exact hst
    | cons e es ih =>
        intro st st' h hst
        rw [List.foldlM_cons, Option.bind_eq_bind, Option.bind_eq_some_iff] at h
        obtain ⟨t, ht, h⟩ := h
        exact ih h (readFile_held ht hst)
  exact hfold l.1 h (Nat.le_refl 0)

/-- The bytes held by the cached frames. -/
def heldBytes (vm : VideoManager) : Nat :=
  (vm.data.entries.map fun e => ((vm.heap.read e.2).map fun di => held di.frames).getD 0).sum

theorem Represents.heldBytes_le {vm : VideoManager} {l : List (Nat × Entry)}
    (h : Represents vm l) (hcovers : ∀ it ∈ l, Covers it) : vm.heldBytes ≤ total sizeOf l := by
  rw [heldBytes, (h.data.map _).sum_eq, List.map_map, total]
  refine List.sum_le_sum fun it hit => ?_
  obtain ⟨di, hdi, hentry⟩ := h.read hit
  have hcov := hcovers it hit
  rw [Covers, ← hentry] at hcov
  simpa [hdi, sizeOf, ← hentry, DataItem.entry] using hcov

/-! ## The steps of a run -/

/-- The eviction loop has come to its end. -/
def fits (vm : VideoManager) : Bool := vm.getSize.any (· ≤ vm.cacheSize)

/-- A load up to its call of `check_cache_overflow`, one round of the
eviction loop, or a move to front. -/
inductive CacheStep where
  | insert (key : Bytes) (out : LoadOutcome)
  | evict
  | front (key : Bytes)

/-- A step happens where the source takes it: a video is loaded when it is
not cached, and between two lookups the eviction loop has ended. -/
def cacheStep (vm : VideoManager) : CacheStep → Option VideoManager
  | .insert key out =>
      if vm.fits ∧ vm.data.find? key = none then vm.insertVideo key out else none
  | .evict => if vm.fits then none else vm.tail.bind vm.evict
  | .front key => if vm.fits then (vm.data.find? key).bind vm.moveToFront else none

def cacheSteps (cacheSize : Nat) (rawPath : StdMap Bytes Bytes) : System VideoManager CacheStep :=
  ⟨fun vm => vm = { cacheSize := cacheSize, rawPath := rawPath }, cacheStep⟩

/-- A call of `LookupSize` or of `Lookup`, with what the system answers if
it loads. -/
inductive LookupCall where
  | size (vname : Bytes) (out : LoadOutcome)
  | frame (vname : Bytes) (frameid : Int) (content : Bytes) (out : LoadOutcome)

def callStep (vm : VideoManager) : LookupCall → Option VideoManager
  | .size vname out => (vm.lookupSize vname out).map Prod.snd
  | .frame vname frameid content out => (vm.lookup vname frameid content out).map fun r => r.2.2

/-- A server answering lookups. -/
def lookups (cacheSize : Nat) (rawPath : StdMap Bytes Bytes) : System VideoManager LookupCall :=
  ⟨fun vm => vm = { cacheSize := cacheSize, rawPath := rawPath }, callStep⟩

/-- What every step keeps. -/
def Kept (cacheSize : Nat) (vm : VideoManager) : Prop :=
  vm.cacheSize = cacheSize ∧ ∃ l, Represents vm l ∧ ∀ it ∈ l, Covers it

theorem fits_iff {vm : VideoManager} {l : List (Nat × Entry)} (h : Represents vm l) :
    vm.fits ↔ total sizeOf l ≤ vm.cacheSize := by
  rw [fits, h.getSize_eq]
  simp

/-- A load that comes back has put its video in front. -/
theorem insertVideo_spec {vm vm' : VideoManager} {l : List (Nat × Entry)} {key : Bytes}
    {out : LoadOutcome} (h : Represents vm l) (hnew : vm.data.find? key = none)
    (hins : vm.insertVideo key out = some vm') :
    ∃ listing frames size p, out.scandir = some listing ∧
      readFiles listing = some (frames, size) ∧
      Represents vm' ((p, ⟨key, frames, size⟩) :: l) ∧ vm'.cacheSize = vm.cacheSize ∧
      vm'.rawPath = vm.rawPath := by
  simp only [insertVideo, Option.bind_eq_bind, Option.bind_eq_some_iff] at hins
  obtain ⟨listing, hlisting, ⟨frames, size⟩, hread, hlink⟩ := hins
  obtain ⟨vm₁, p, hlink₁, hrep, hsize, hraw⟩ := linkFront_spec h hnew frames size
  rw [hlink] at hlink₁
  cases hlink₁
  exact ⟨listing, frames, size, p, hlisting, hread, hrep, hsize, hraw⟩

/-- An item that `data` finds is somewhere in the list. -/
theorem Represents.split {vm : VideoManager} {l : List (Nat × Entry)} (h : Represents vm l)
    {key : Bytes} {p : Nat} (hfind : vm.data.find? key = some p) :
    ∃ xs c ys, l = xs ++ (p, c) :: ys ∧ c.name = key := by
  obtain ⟨c, hmem, hname⟩ := h.find_eq_some.mp hfind
  obtain ⟨xs, ys, rfl⟩ := List.append_of_mem hmem
  exact ⟨xs, c, ys, rfl, hname⟩

theorem Kept.step {cacheSize : Nat} {vm vm' : VideoManager} {e : CacheStep}
    (h : Kept cacheSize vm) (hstep : cacheStep vm e = some vm') : Kept cacheSize vm' := by
  obtain ⟨hcache, l, hrep, hcovers⟩ := h
  cases e with
  | insert key out =>
      simp only [cacheStep] at hstep
      split at hstep
      · next hok =>
          obtain ⟨listing, frames, size, p, -, hread, hrep', hsize, -⟩ :=
            insertVideo_spec hrep hok.2 hstep
          refine ⟨hsize.trans hcache, _, hrep', fun it hit => ?_⟩
          rcases List.mem_cons.mp hit with rfl | hit
          · exact readFiles_held hread
          · exact hcovers it hit
      · cases hstep
  | evict =>
      simp only [cacheStep] at hstep
      split at hstep
      · cases hstep
      · obtain ⟨p, htail, hevict⟩ := Option.bind_eq_some_iff.mp hstep
        rcases List.eq_nil_or_concat l with rfl | ⟨l, ⟨q, c⟩, rfl⟩
        · rw [hrep.tail] at htail
          cases htail
        · rw [List.concat_eq_append] at hrep hcovers
          have hq : q = p := by
            have hlast := hrep.tail.symm.trans htail
            simpa using hlast
          subst hq
          obtain ⟨vm₁, hevict₁, hrep₁, hsize, -⟩ := evict_spec hrep
          rw [hevict] at hevict₁
          cases hevict₁
          exact ⟨hsize.trans hcache, l, hrep₁,
            fun it hit => hcovers it (List.mem_append_left _ hit)⟩
  | front key =>
      simp only [cacheStep] at hstep
      split at hstep
      · obtain ⟨p, hfind, hmove⟩ := Option.bind_eq_some_iff.mp hstep
        obtain ⟨xs, c, ys, rfl, -⟩ := hrep.split hfind
        obtain ⟨vm₁, hmove₁, hrep₁, hsize, -⟩ := moveToFront_spec hrep
        rw [hmove] at hmove₁
        cases hmove₁
        refine ⟨hsize.trans hcache, _, hrep₁, fun it hit => hcovers it ?_⟩
        exact List.perm_middle.symm.mem_iff.mp hit
      · cases hstep

theorem reachable_step {cacheSize : Nat} {rawPath : StdMap Bytes Bytes} {vm vm' : VideoManager}
    {e : CacheStep} (h : (cacheSteps cacheSize rawPath).Reachable vm)
    (hstep : cacheStep vm e = some vm') : (cacheSteps cacheSize rawPath).Reachable vm' :=
  System.RunsUnder.step h trivial hstep

/-- The eviction loop is a run of `evict` steps that ends when its test
fails or the list is empty. -/
theorem checkCacheOverflow_steps {cacheSize : Nat} {rawPath : StdMap Bytes Bytes} :
    ∀ (fuel : Nat) {vm vm' : VideoManager}, (cacheSteps cacheSize rawPath).Reachable vm →
      checkCacheOverflow fuel vm = some vm' → (cacheSteps cacheSize rawPath).Reachable vm' := by
  intro fuel
  induction fuel with
  | zero => intro vm vm' _ h; cases h
  | succ fuel ih =>
      intro vm vm' hreach h
      simp only [checkCacheOverflow, Option.bind_eq_bind, Option.bind_eq_some_iff] at h
      obtain ⟨size, hsize, h⟩ := h
      split at h
      · cases h; exact hreach
      · next di htail =>
          split at h
          · next hover =>
              obtain ⟨vm₁, hevict, h⟩ := Option.bind_eq_some_iff.mp h
              refine ih (reachable_step (e := .evict) hreach ?_) h
              have hfits : ¬ vm.fits := by
                rw [fits, hsize]
                simpa using hover
              simp only [cacheStep, if_neg hfits, htail, Option.bind_some, hevict]
          · cases h; exact hreach

theorem kept_of_reachable {cacheSize : Nat} {rawPath : StdMap Bytes Bytes} {vm : VideoManager}
    (h : (cacheSteps cacheSize rawPath).Reachable vm) : Kept cacheSize vm := by
  refine h.invariant (P := Kept cacheSize) (fun vm hvm => ?_) fun _ _ _ hk hs => hk.step hs
  have hnew : vm = { cacheSize := cacheSize, rawPath := rawPath } := hvm
  subst hnew
  exact ⟨rfl, [], represents_new _ _, by simp⟩

/-- From a state of a run the eviction loop ends, within the bound. -/
theorem Kept.overflow {cacheSize : Nat} {vm : VideoManager} (h : Kept cacheSize vm) :
    ∃ vm', checkCacheOverflow (vm.data.entries.length + 1) vm = some vm' ∧ vm'.fits ∧
      ∃ size, vm'.getSize = some size ∧ size ≤ cacheSize ∧ vm'.heldBytes ≤ size := by
  obtain ⟨rfl, l, hrep, hcovers⟩ := h
  have hfuel : l.length < vm.data.entries.length + 1 := by
    rw [hrep.length_data]
    exact Nat.lt_succ_self _
  obtain ⟨vm', hcheck, hrep', hsize, -⟩ := checkCacheOverflow_spec _ hrep hfuel
  have hle : total sizeOf (keep sizeOf vm.cacheSize l) ≤ vm.cacheSize :=
    total_keep_le l vm.cacheSize
  refine ⟨vm', hcheck, (fits_iff hrep').mpr (hsize ▸ hle), _, hrep'.getSize_eq, hle, ?_⟩
  refine hrep'.heldBytes_le fun it hit => hcovers it ?_
  exact (keep_isPrefix l vm.cacheSize).subset hit

/-- Everything a call does to the cache is a run of steps, and it leaves a
cache that fits. -/
theorem findOrLoad_steps {cacheSize : Nat} {rawPath : StdMap Bytes Bytes} {vm vm' : VideoManager}
    {vname : Bytes} {out : LoadOutcome} {found : Option Nat}
    (hreach : (cacheSteps cacheSize rawPath).Reachable vm) (hfits : vm.fits)
    (h : vm.findOrLoad vname out = some (found, vm')) :
    (cacheSteps cacheSize rawPath).Reachable vm' ∧ vm'.fits ∧
      ∀ di, found = some di → vm'.data.find? vname = some di := by
  unfold findOrLoad at h
  cases hfind : vm.data.find? vname with
  | some di =>
      simp only [hfind, Option.some.injEq, Prod.mk.injEq] at h
      obtain ⟨rfl, rfl⟩ := h
      exact ⟨hreach, hfits, fun _ heq => heq ▸ hfind⟩
  | none =>
      simp only [hfind, Option.bind_eq_bind, Option.bind_eq_some_iff] at h
      obtain ⟨⟨r, vm₁⟩, hload, h⟩ := h
      have hloaded : (cacheSteps cacheSize rawPath).Reachable vm₁ ∧ vm₁.fits := by
        unfold load at hload
        split at hload
        · cases hload; exact ⟨hreach, hfits⟩
        · split at hload
          · simp only [Option.bind_eq_bind, Option.bind_eq_some_iff] at hload
            obtain ⟨vm₂, hins, vm₃, hcheck, hload⟩ := hload
            cases hload
            have hstep : cacheStep vm (.insert vname out) = some vm₂ := by
              rw [cacheStep, if_pos ⟨hfits, hfind⟩, hins]
            have hreach₂ := reachable_step hreach hstep
            obtain ⟨vm₄, hcheck', hfits', -⟩ := (kept_of_reachable hreach₂).overflow
            rw [hcheck] at hcheck'
            cases hcheck'
            exact ⟨checkCacheOverflow_steps _ hreach₂ hcheck, hfits'⟩
          · cases hload; exact ⟨hreach, hfits⟩
      split at h
      · cases h
        exact ⟨hloaded.1, hloaded.2, fun _ heq => by cases heq⟩
      · obtain ⟨di, hdi, h⟩ := Option.bind_eq_some_iff.mp h
        cases h
        exact ⟨hloaded.1, hloaded.2, fun _ heq => by cases heq; exact hdi⟩

theorem callStep_steps {cacheSize : Nat} {rawPath : StdMap Bytes Bytes} {vm vm' : VideoManager}
    {c : LookupCall} (hreach : (cacheSteps cacheSize rawPath).Reachable vm) (hfits : vm.fits)
    (h : callStep vm c = some vm') :
    (cacheSteps cacheSize rawPath).Reachable vm' ∧ vm'.fits := by
  cases c with
  | size vname out =>
      obtain ⟨⟨r, vm₁⟩, hcall, rfl⟩ := Option.map_eq_some_iff.mp h
      simp only [lookupSize, Option.bind_eq_bind, Option.bind_eq_some_iff] at hcall
      obtain ⟨⟨found, vm₂⟩, hfind, hcall⟩ := hcall
      obtain ⟨hreach₂, hfits₂, -⟩ := findOrLoad_steps hreach hfits hfind
      cases found with
      | none => cases hcall; exact ⟨hreach₂, hfits₂⟩
      | some di =>
          obtain ⟨item, -, hcall⟩ := Option.bind_eq_some_iff.mp hcall
          cases hcall
          exact ⟨hreach₂, hfits₂⟩
  | frame vname frameid content out =>
      obtain ⟨⟨r, bytes, vm₁⟩, hcall, rfl⟩ := Option.map_eq_some_iff.mp h
      simp only [lookup, Option.bind_eq_bind, Option.bind_eq_some_iff] at hcall
      obtain ⟨⟨found, vm₂⟩, hfind, hcall⟩ := hcall
      obtain ⟨hreach₂, hfits₂, hdata⟩ := findOrLoad_steps hreach hfits hfind
      cases found with
      | none => cases hcall; exact ⟨hreach₂, hfits₂⟩
      | some di =>
          simp only [Option.bind_eq_some_iff] at hcall
          obtain ⟨vm₃, hmove, item, -, hcall⟩ := hcall
          have hend : vm₃ = vm₁ := by
            split at hcall <;> cases hcall <;> rfl
          subst hend
          have hstep : cacheStep vm₂ (.front vname) = some vm₃ := by
            rw [cacheStep, if_pos hfits₂, hdata di rfl, Option.bind_some, hmove]
          refine ⟨reachable_step hreach₂ hstep, ?_⟩
          obtain ⟨hcache, l, hrep, -⟩ := kept_of_reachable hreach₂
          obtain ⟨xs, c, ys, rfl, -⟩ := hrep.split (hdata di rfl)
          obtain ⟨vm₄, hmove', hrep', hsize, -⟩ := moveToFront_spec hrep
          rw [hmove] at hmove'
          cases hmove'
          have hle := (fits_iff hrep).mp hfits₂
          rw [fits_iff hrep', hsize]
          simp only [total_append, total_cons] at hle ⊢
          omega

/-- The list and the map show the same items: from `head` along `next` and
from `tail` along `prev`, each item of `data` is met once, in opposite
orders, and both ways end at null. -/
def WellLinked (vm : VideoManager) : Prop :=
  ∃ order : List Nat, Walk vm.heap DataItem.next vm.head order ∧
    Walk vm.heap DataItem.prev vm.tail order.reverse ∧ order.Nodup ∧
    (∀ p, p ∈ order ↔ ∃ k, (k, p) ∈ vm.data.entries) ∧
    (∀ k p, (k, p) ∈ vm.data.entries → ∃ di, vm.heap.read p = some di ∧ di.name = k) ∧
    (vm.head = none ↔ vm.data.entries = []) ∧ (vm.tail = none ↔ vm.data.entries = [])

theorem Represents.wellLinked {vm : VideoManager} {l : List (Nat × Entry)}
    (h : Represents vm l) : WellLinked vm := by
  have hnil : vm.data.entries = [] ↔ l = [] := by
    rw [← List.length_eq_zero_iff, h.length_data, List.length_eq_zero_iff]
  refine ⟨l.map Prod.fst, h.head ▸ h.linked.walk_next, h.tail ▸ h.linked.walk_prev, h.nodup,
    fun p => ?_, fun k p hkp => ?_, ?_, ?_⟩
  · simp only [h.mem_data, List.mem_map, Prod.exists, exists_and_right, exists_eq_right]
    constructor
    · intro hp
      obtain ⟨c, hc⟩ := hp
      exact ⟨c.name, c, hc, rfl⟩
    · intro hp
      obtain ⟨k, c, hc, -⟩ := hp
      exact ⟨c, hc⟩
  · obtain ⟨c, hc, rfl⟩ := h.mem_data.mp hkp
    obtain ⟨di, hdi, hentry⟩ := h.read hc
    exact ⟨di, hdi, congrArg Entry.name hentry⟩
  · rw [hnil, h.head, List.head?_eq_none_iff, List.map_eq_nil_iff]
  · rw [hnil, h.tail, List.getLast?_eq_none_iff, List.map_eq_nil_iff]

/-- Between two lookups a server is in a state of the steps, within the
bound. -/
theorem lookups_steps {cacheSize : Nat} {rawPath : StdMap Bytes Bytes} {vm : VideoManager}
    (h : (lookups cacheSize rawPath).Reachable vm) :
    (cacheSteps cacheSize rawPath).Reachable vm ∧ vm.fits := by
  refine h.invariant (P := fun vm => (cacheSteps cacheSize rawPath).Reachable vm ∧ vm.fits)
    (fun vm hvm => ?_) fun _ _ _ h hs => callStep_steps h.1 h.2 hs
  have hnew : vm = { cacheSize := cacheSize, rawPath := rawPath } := hvm
  refine ⟨.init hvm, ?_⟩
  rw [hnew, fits_iff (represents_new _ _)]
  exact Nat.zero_le _

theorem lookups_kept {cacheSize : Nat} {rawPath : StdMap Bytes Bytes} {vm : VideoManager}
    (h : (lookups cacheSize rawPath).Reachable vm) : Kept cacheSize vm :=
  kept_of_reachable (lookups_steps h).1

/-- The representation and the bound of the cache. After every completed
load, eviction and move to front the list and the map agree, and the
eviction loop started there ends with a cache within its bound. The states
between two lookups are such states, and within the bound. -/
theorem cache_represented (cacheSize : Nat) (rawPath : StdMap Bytes Bytes) :
    (∀ vm, (cacheSteps cacheSize rawPath).Reachable vm → WellLinked vm ∧
      ∃ vm', checkCacheOverflow (vm.data.entries.length + 1) vm = some vm' ∧
        (cacheSteps cacheSize rawPath).Reachable vm' ∧
        ∃ size, vm'.getSize = some size ∧ size ≤ cacheSize ∧ vm'.heldBytes ≤ size) ∧
    (∀ vm, (lookups cacheSize rawPath).Reachable vm →
      (cacheSteps cacheSize rawPath).Reachable vm ∧
        ∃ size, vm.getSize = some size ∧ size ≤ cacheSize ∧ vm.heldBytes ≤ size) := by
  constructor
  · intro vm hreach
    have hkept := kept_of_reachable hreach
    obtain ⟨vm', hcheck, -, hbound⟩ := hkept.overflow
    obtain ⟨-, l, hrep, -⟩ := hkept
    exact ⟨hrep.wellLinked, vm', hcheck, checkCacheOverflow_steps _ hreach hcheck, hbound⟩
  · intro vm hreach
    obtain ⟨hsteps, hfits⟩ := lookups_steps hreach
    obtain ⟨hcache, l, hrep, hcovers⟩ := kept_of_reachable hsteps
    exact ⟨hsteps, _, hrep.getSize_eq, hcache ▸ (fits_iff hrep).mp hfits, hrep.heldBytes_le hcovers⟩

end VideoManager

end VideoMatch.Browse
