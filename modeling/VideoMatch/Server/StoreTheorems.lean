/-
VideoMatch.Server.StoreTheorems — the invariant of the store, and `Add`.

`Linked` says that each name in `db` leads to a live object with that
name. Two names never share an object, because the object records its
name. `Inv` is what every operation relies on: the store is linked, the
cached counts are right, and the index holds exactly the distinct
non-blank frames of the stored objects.

An object enters the store in two steps, which `Add` and `Load` share.
`storeNew` allocates it and enters its name, which keeps `Linked`;
`addFramesToIndex` sets its count and indexes its frames.

`add_spec` says everything `Add` does: the rejected case changes
nothing, the accepted case appends one video, keeps the invariant and
leaves every existing object as it was. In terms of the catalogue,
`Add` is `Catalogue.insert` (`add_catalogue`).

`withRefs` accounts for reference counts: `withRefs h l` is the heap `h`
after each address in `l` has been given a reference. Taking and
dropping a reference add to and remove from `l`, and nothing else in the
heap changes, as long as no object is marked deleted. None ever is.
-/
import VideoMatch.Server.IndexTheorems

namespace VideoMatch.Server

open VideoMatch.Cxx

/-- The object with its cached count set. -/
def DataItem.counted (di : DataItem) : DataItem :=
  { di with uniqFrmCnt := (distinctFrames di.frames).length }

/-- The object without its reference count. -/
def DataItem.noRef (di : DataItem) : DataItem := { di with ref := 0 }

theorem DataItem.of_noRef_eq {a b : DataItem} (h : a.noRef = b.noRef) :
    a.name = b.name ∧ a.frames = b.frames ∧ a.uniqFrmCnt = b.uniqFrmCnt ∧
      a.deleted = b.deleted := by
  obtain ⟨hcnt, hname, hframes, -, hdel⟩ := DataItem.mk.inj h
  exact ⟨hname, hframes, hcnt, hdel⟩

namespace VideoDB

/-! ## The invariant -/

/-- The pairs the index should hold. -/
def indexEntries (s : VideoDB) : KeyBlock :=
  s.items.flatMap fun it => (distinctFrames it.2.frames).map fun h => (h, it.1)

/-- Each name in `db` leads to a live object with that name. -/
structure Linked (s : VideoDB) : Prop where
  stored : ∀ n p, (n, p) ∈ s.db.entries → ∃ di, s.heap.read p = some di ∧ di.name = n ∧
    di.deleted = false

structure Inv (s : VideoDB) : Prop extends Linked s where
  counted : ∀ p di, (p, di) ∈ s.items → di.uniqFrmCnt = (distinctFrames di.frames).length
  index : Indexes s.table s.indexEntries

theorem mem_items {s : VideoDB} {p : Nat} {di : DataItem} :
    (p, di) ∈ s.items ↔ (∃ n, (n, p) ∈ s.db.entries) ∧ s.heap.read p = some di := by
  simp only [items, List.mem_filterMap, Option.map_eq_some_iff, Prod.mk.injEq]
  constructor
  · intro h
    obtain ⟨⟨n, q⟩, hmem, di', hread, rfl, rfl⟩ := h
    exact ⟨⟨n, hmem⟩, hread⟩
  · intro h
    obtain ⟨⟨n, hmem⟩, hread⟩ := h
    exact ⟨(n, p), hmem, di, hread, rfl, rfl⟩

theorem mem_content {s : VideoDB} {n : Bytes} {frames : List UInt64} :
    (n, frames) ∈ s.content ↔
      ∃ p di, (n, p) ∈ s.db.entries ∧ s.heap.read p = some di ∧ di.frames = frames := by
  simp only [content, List.mem_filterMap, Option.map_eq_some_iff, Prod.mk.injEq]
  constructor
  · intro h
    obtain ⟨⟨m, p⟩, hmem, di, hread, rfl, rfl⟩ := h
    exact ⟨p, di, hmem, hread, rfl⟩
  · intro h
    obtain ⟨p, di, hmem, hread, rfl⟩ := h
    exact ⟨(n, p), hmem, di, hread, rfl, rfl⟩

/-- What is stored depends on `db` and on the objects `db` leads to. -/
theorem items_congr {s s' : VideoDB} (hdb : s'.db.entries = s.db.entries)
    (hread : ∀ n p, (n, p) ∈ s.db.entries → s'.heap.read p = s.heap.read p) :
    s'.items = s.items := by
  unfold items
  rw [hdb]
  exact List.filterMap_congr fun e he => by rw [hread e.1 e.2 he]

theorem items_fresh : fresh.items = [] := rfl

theorem linked_fresh : Linked fresh := ⟨fun n p h => by simp [fresh] at h⟩

theorem inv_fresh : Inv fresh :=
  ⟨linked_fresh, fun p di h => by simp [items_fresh] at h, indexes_empty⟩

namespace Linked

variable {s : VideoDB}

/-- The objects that entries of `db` lead to have the names of the entries. -/
theorem names_of_entries (h : Linked s) : ∀ es : List (Bytes × Nat), (∀ e ∈ es, e ∈ s.db.entries) →
    (es.filterMap fun e => (s.heap.read e.2).map fun di => (e.2, di)).map (fun it => it.2.name)
      = es.map Prod.fst := by
  intro es
  induction es with
  | nil => intro _; rfl
  | cons e es ih =>
      intro hes
      obtain ⟨di, hread, hname, -⟩ := h.stored e.1 e.2 (hes e (by simp))
      have hrest := ih fun e' he' => hes e' (List.mem_cons_of_mem _ he')
      rw [List.filterMap_cons_some (by rw [hread]; rfl), List.map_cons, List.map_cons, hrest, hname]

/-- Nothing in `db` is skipped by `items`. -/
theorem names_items (h : Linked s) :
    s.items.map (fun it => it.2.name) = s.db.entries.map Prod.fst :=
  h.names_of_entries s.db.entries fun _ he => he

/-- No object is stored under two names. -/
theorem nodup_addresses (h : Linked s) : (s.items.map Prod.fst).Nodup := by
  have hname : (s.items.map fun it => it.2.name).Nodup := by
    rw [h.names_items]; exact s.db.nodup
  have hvia : s.items.map (fun it => it.2.name)
      = (s.items.map Prod.fst).map fun p => ((s.heap.read p).map DataItem.name).getD [] := by
    rw [List.map_map]
    refine List.map_congr_left fun it hit => ?_
    simp [(mem_items.mp hit).2]
  rw [hvia] at hname
  exact hname.of_map

theorem content_eq (h : Linked s) :
    s.content = s.items.map fun it => (it.2.name, it.2.frames) := by
  rw [content, items, List.map_filterMap]
  refine List.filterMap_congr fun e he => ?_
  obtain ⟨di, hread, hname, -⟩ := h.stored e.1 e.2 he
  simp [hread, hname]

/-- Every name in `db` is in the catalogue. -/
theorem mem_names (h : Linked s) {n : Bytes} :
    n ∈ s.catalogue.names ↔ s.db.find? n ≠ none := by
  rw [Ne, s.db.find?_eq_none_iff, not_not, Catalogue.names, catalogue, Multiset.map_coe,
    Multiset.mem_coe, h.content_eq, List.map_map]
  rw [← h.names_items]
  rfl

theorem length_content (h : Linked s) : s.content.length = s.db.entries.length := by
  have hmap := congrArg List.length h.names_items
  rw [List.length_map, List.length_map] at hmap
  rw [h.content_eq, List.length_map, hmap]

theorem item_facts (h : Linked s) {p : Nat} {di : DataItem} (hp : (p, di) ∈ s.items) :
    (di.name, p) ∈ s.db.entries ∧ di.deleted = false := by
  obtain ⟨⟨n, hn⟩, hread⟩ := mem_items.mp hp
  obtain ⟨di', hread', hname, hdel⟩ := h.stored n p hn
  rw [hread] at hread'
  cases hread'
  exact ⟨hname ▸ hn, hdel⟩

end Linked

namespace Inv

variable {s : VideoDB}

theorem mem_indexEntries {k : UInt64} {p : Nat} :
    (k, p) ∈ s.indexEntries ↔ ∃ di, (p, di) ∈ s.items ∧ k ∈ distinctFrames di.frames := by
  simp only [indexEntries, List.mem_flatMap, List.mem_map, Prod.mk.injEq]
  constructor
  · rintro ⟨⟨q, di⟩, hq, h, hh, rfl, rfl⟩; exact ⟨di, hq, hh⟩
  · rintro ⟨di, hp, hk⟩; exact ⟨(p, di), hp, k, hk, rfl, rfl⟩

/-- Each pair belongs into the index once. -/
theorem nodup_indexEntries (h : Inv s) : s.indexEntries.Nodup := by
  rw [indexEntries, List.nodup_flatMap]
  refine ⟨fun it _ => (nodup_distinctFrames _).map fun a b hab => (Prod.mk.inj hab).1, ?_⟩
  have hp : s.items.Pairwise fun a b => a.1 ≠ b.1 := by
    have := h.nodup_addresses
    rwa [List.Nodup, List.pairwise_map] at this
  refine hp.imp fun {a b} hne => ?_
  intro e hea heb
  obtain ⟨ka, -, rfl⟩ := List.mem_map.mp hea
  obtain ⟨kb, -, heq⟩ := List.mem_map.mp heb
  exact hne (Prod.mk.inj heq).2.symm

end Inv

/-! ## Storing an object -/

/-- `item` is allocated and its name entered into `db`. -/
def storeNew (s : VideoDB) (item : DataItem) : VideoDB :=
  { s with heap := (s.heap.alloc item).1, db := s.db.insert item.name s.heap.next }

theorem read_storeNew_of_entry {s : VideoDB} (hs : Linked s) (item : DataItem) {n : Bytes}
    {p : Nat} (hnp : (n, p) ∈ s.db.entries) : (s.storeNew item).heap.read p = s.heap.read p := by
  obtain ⟨di, hread, -⟩ := hs.stored n p hnp
  rw [hread]
  exact Heap.read_alloc_of_read item hread

theorem Linked.storeNew {s : VideoDB} (hs : Linked s) {item : DataItem}
    (hdel : item.deleted = false) : Linked (s.storeNew item) := by
  refine ⟨fun n p hnp => ?_⟩
  rcases s.db.mem_entries_insert.mp hnp with hnp | ⟨-, heq⟩
  · rw [read_storeNew_of_entry hs item hnp]; exact hs.stored n p hnp
  · cases heq; exact ⟨item, Heap.read_alloc_self _ _, rfl, hdel⟩

/-- A new name brings its object. -/
theorem items_storeNew {s : VideoDB} (hs : Linked s) {item : DataItem}
    (hnew : s.db.find? item.name = none) :
    (s.storeNew item).items = s.items ++ [(s.heap.next, item)] := by
  have hdb : (s.storeNew item).db.entries = s.db.entries ++ [(item.name, s.heap.next)] :=
    s.db.entries_insert_of_none _ hnew
  rw [items, hdb, List.filterMap_append]
  congr 1
  · exact List.filterMap_congr fun e he => by rw [read_storeNew_of_entry hs item he]
  · have hread : (s.storeNew item).heap.read s.heap.next = some item := Heap.read_alloc_self _ _
    simp [hread]

/-- A taken name keeps its object. -/
theorem items_storeNew_of_some {s : VideoDB} (hs : Linked s) {item : DataItem} {p : Nat}
    (htaken : s.db.find? item.name = some p) : (s.storeNew item).items = s.items := by
  refine items_congr ?_ fun n q hnq => read_storeNew_of_entry hs item hnq
  exact congrArg UnorderedMap.entries (s.db.insert_of_some _ htaken)

/-! ## Indexing an object -/

theorem items_modify (s : VideoDB) (p : Nat) (f : DataItem → DataItem)
    (table : UnorderedMap UInt32 KeyBlock) :
    ({ s with heap := s.heap.modify p f, table := table } : VideoDB).items
      = s.items.map fun it => if it.1 = p then (it.1, f it.2) else it := by
  rw [items, items, List.map_filterMap]
  refine List.filterMap_congr fun e _ => ?_
  by_cases hp : e.2 = p
  · subst hp
    rw [Heap.read_modify_self]
    cases s.heap.read e.2 <;> simp
  · rw [Heap.read_modify_of_ne _ _ hp]
    cases s.heap.read e.2 <;> simp [hp]

theorem Linked.modify {s : VideoDB} (hs : Linked s) (p : Nat) (f : DataItem → DataItem)
    (hname : ∀ di, (f di).name = di.name) (hdel : ∀ di, (f di).deleted = di.deleted)
    (table : UnorderedMap UInt32 KeyBlock) :
    Linked { s with heap := s.heap.modify p f, table := table } := by
  refine ⟨fun n q hnq => ?_⟩
  obtain ⟨di, hread, hn, hd⟩ := hs.stored n q hnq
  by_cases hq : q = p
  · subst hq
    exact ⟨f di, by rw [Heap.read_modify_self, hread]; rfl, (hname di).trans hn, (hdel di).trans hd⟩
  · exact ⟨di, by rw [Heap.read_modify_of_ne _ _ hq, hread], hn, hd⟩

/-- What indexing one stored object does. -/
theorem addFramesToIndex_spec (o : HashOrder) (s : VideoDB) {p : Nat} {item : DataItem}
    (hread : s.heap.read p = some item) :
    ∃ table, addFramesToIndex o s p
        = some { s with heap := s.heap.modify p DataItem.counted, table := table } ∧
      ∀ es, Indexes s.table es →
        Indexes table (es ++ (distinctFrames item.frames).map fun h => (h, p)) := by
  have hheap : s.heap.modify p
      (fun di => { di with uniqFrmCnt := (distinctFrames item.frames).length })
        = s.heap.modify p DataItem.counted := by
    refine Heap.ext_read (fun q => ?_) rfl
    by_cases hq : q = p
    · subst hq
      rw [Heap.read_modify_self, Heap.read_modify_self, hread]
      rfl
    · rw [Heap.read_modify_of_ne _ _ hq, Heap.read_modify_of_ne _ _ hq]
  refine ⟨_, by rw [addFramesToIndex, hread, ← hheap]; rfl, fun es hes => ?_⟩
  exact (Indexes.push_all p _ hes).perm
    (List.Perm.append_left _ ((o.frames.perm _).map _))

/-! ## Adding -/

/-- `Add`: a taken name is rejected and nothing changes; otherwise one video
is appended, and the stored objects stay where and as they were. -/
theorem add_spec {s : VideoDB} (hs : Inv s) (o : HashOrder) (dataItem : DataItem) :
    (dataItem.name ∈ s.catalogue.names ∧ add o s dataItem = some (-1, s)) ∨
    (dataItem.name ∉ s.catalogue.names ∧ ∃ s', add o s dataItem = some (0, s') ∧ Inv s' ∧
      s'.content = s.content ++ [(dataItem.name, dataItem.frames)] ∧
      s'.items = s.items ++ [(s.heap.next, dataItem.copy.counted)]) := by
  cases hfind : s.db.find? dataItem.name with
  | some p =>
      refine .inl ⟨hs.mem_names.mpr (by rw [hfind]; simp), ?_⟩
      simp [add, hfind]
  | none =>
      refine .inr ⟨fun h => hs.mem_names.mp h hfind, ?_⟩
      have hnew : (s.storeNew dataItem.copy).heap.read s.heap.next = some dataItem.copy :=
        Heap.read_alloc_self _ _
      obtain ⟨table, hadd, hindex⟩ := addFramesToIndex_spec o (s.storeNew dataItem.copy) hnew
      obtain ⟨s', hs'⟩ : ∃ s' : VideoDB, s' = { s.storeNew dataItem.copy with
          heap := (s.storeNew dataItem.copy).heap.modify s.heap.next DataItem.counted
          table := table } := ⟨_, rfl⟩
      have hadded : (s.storeNew dataItem.copy).items = s.items ++ [(s.heap.next, dataItem.copy)] :=
        items_storeNew hs.toLinked hfind
      have hitems : s'.items = s.items ++ [(s.heap.next, dataItem.copy.counted)] := by
        rw [hs', items_modify, hadded, List.map_append]
        congr 1
        · refine (List.map_congr_left fun it hit => ?_).trans s.items.map_id
          have hlt := Heap.lt_next_of_read (mem_items.mp hit).2
          rw [if_neg (Nat.ne_of_lt hlt)]; rfl
        · simp
      have hlinked : Linked s' := by
        rw [hs']
        have hcopy : dataItem.copy.deleted = false := rfl
        exact (hs.toLinked.storeNew hcopy).modify _ DataItem.counted (fun _ => rfl) (fun _ => rfl)
          table
      have hinv : Inv s' := by
        refine ⟨hlinked, fun p di hp => ?_, ?_⟩
        · rw [hitems, List.mem_append, List.mem_singleton] at hp
          rcases hp with hp | hp
          · exact hs.counted p di hp
          · cases hp; rfl
        · have hentries : s'.indexEntries = s.indexEntries ++
              (distinctFrames dataItem.frames).map fun h => (h, s.heap.next) := by
            simp [indexEntries, hitems, DataItem.copy, DataItem.counted]
          rw [hentries, hs']
          exact hindex _ hs.index
      refine ⟨s', ?_, hinv, ?_, hitems⟩
      · rw [add, hfind]
        simp only [Heap.alloc_snd]
        rw [hs']
        exact congrArg (fun r => r.bind fun s => some ((0 : Int), s)) hadd
      · rw [hlinked.content_eq, hitems, hs.content_eq]
        simp [DataItem.copy, DataItem.counted]

/-- `Add` in terms of the catalogue. -/
theorem add_catalogue {s : VideoDB} (hs : Inv s) (o : HashOrder) (dataItem : DataItem) :
    ∃ s', add o s dataItem
        = some (if dataItem.name ∈ s.catalogue.names then -1 else 0, s') ∧ Inv s' ∧
      s'.catalogue = s.catalogue.insert (dataItem.name, dataItem.frames) := by
  rcases add_spec hs o dataItem with ⟨hmem, hadd⟩ | ⟨hmem, s', hadd, hinv, hcontent, -⟩
  · exact ⟨s, by rw [hadd, if_pos hmem], hs, (Catalogue.insert_of_mem hmem).symm⟩
  · refine ⟨s', by rw [hadd, if_neg hmem], hinv, Catalogue.ext ?_⟩
    rw [Catalogue.videos_insert_of_not_mem hmem]
    show (s'.content : Multiset Video) = _ ::ₘ (s.content : Multiset Video)
    rw [hcontent, Multiset.cons_coe, Multiset.coe_eq_coe]
    exact List.perm_append_singleton _ _

/-- A call that is known to have returned keeps what is stored. -/
theorem add_keeps {s s' : VideoDB} (hs : Inv s) {o : HashOrder} {dataItem : DataItem} {r : Int}
    (hadd : add o s dataItem = some (r, s')) :
    Inv s' ∧ s.catalogue.videos ≤ s'.catalogue.videos := by
  obtain ⟨t, hadd', hinv, hcat⟩ := add_catalogue hs o dataItem
  rw [hadd, Option.some.injEq, Prod.mk.injEq] at hadd'
  obtain ⟨-, rfl⟩ := hadd'
  rw [hcat]
  exact ⟨hinv, Catalogue.le_insert _ _⟩

/-! ## References -/

/-- The heap with one more reference for each address in `l`. -/
def withRefs (heap : Heap DataItem) (l : List Nat) : Heap DataItem :=
  ⟨fun p => (heap.cell p).map fun di => { di with ref := di.ref + l.count p }, heap.next,
    fun p hp => by rw [heap.fresh p hp]; rfl⟩

theorem read_withRefs (heap : Heap DataItem) (l : List Nat) (p : Nat) :
    (withRefs heap l).read p
      = (heap.read p).map fun di => { di with ref := di.ref + l.count p } := rfl

@[simp] theorem withRefs_nil (heap : Heap DataItem) : withRefs heap [] = heap := by
  refine Heap.ext_read (fun p => ?_) rfl
  rw [read_withRefs]
  cases heap.read p <;> simp

theorem incRef_withRefs {heap : Heap DataItem} {l : List Nat} {p : Nat} {di : DataItem}
    (h : heap.read p = some di) :
    incRef (withRefs heap l) p = some (withRefs heap (l ++ [p])) := by
  rw [incRef, read_withRefs, h]
  refine congrArg some (Heap.ext_read (fun q => ?_) rfl)
  by_cases hq : q = p
  · subst hq
    simp [read_withRefs, h, List.count_append, Int.add_assoc]
  · rw [Heap.read_modify_of_ne _ _ hq, read_withRefs, read_withRefs, List.count_append,
      List.count_singleton, if_neg (by simpa using Ne.symm hq), Nat.add_zero]

theorem decRef_withRefs {heap : Heap DataItem} {l : List Nat} {p : Nat} {di : DataItem}
    (h : heap.read p = some di) (hdel : di.deleted = false) :
    decRef (withRefs heap (p :: l)) p = some (withRefs heap l) := by
  rw [decRef, read_withRefs, h]
  simp only [Option.map_some, Option.bind_eq_bind, Option.bind_some, hdel]
  rw [if_neg (by simp)]
  refine congrArg some (Heap.ext_read (fun q => ?_) rfl)
  by_cases hq : q = p
  · subst hq
    rw [Heap.read_modify_self, read_withRefs, read_withRefs, h]
    simp only [Option.map_some, List.count_cons_self, Option.some.injEq, DataItem.mk.injEq,
      true_and, and_true]
    push_cast
    omega
  · rw [Heap.read_modify_of_ne _ _ hq, read_withRefs, read_withRefs,
      List.count_cons_of_ne (Ne.symm hq)]

/-! ## Changes of references only -/

/-- `s'` is `s` with other reference counts. -/
structure SameButRefs (s s' : VideoDB) : Prop where
  db : s'.db = s.db
  table : s'.table = s.table
  read : ∀ p, (s'.heap.read p).map DataItem.noRef = (s.heap.read p).map DataItem.noRef

theorem sameButRefs_withRefs (s : VideoDB) (l : List Nat) :
    SameButRefs s { s with heap := withRefs s.heap l } :=
  ⟨rfl, rfl, fun p => by
    show ((withRefs s.heap l).read p).map DataItem.noRef = _
    rw [read_withRefs, Option.map_map]
    rfl⟩

theorem sameButRefs_modify (s : VideoDB) (p : Nat) {f : DataItem → DataItem}
    (hf : ∀ di, (f di).noRef = di.noRef) : SameButRefs s { s with heap := s.heap.modify p f } :=
  ⟨rfl, rfl, fun q => s.heap.map_read_modify p q f DataItem.noRef hf⟩

namespace SameButRefs

variable {s s' : VideoDB}

/-- The stored objects correspond one to one. -/
theorem items_eq (h : SameButRefs s s') : s'.items.map (fun it => (it.1, it.2.noRef))
    = s.items.map fun it => (it.1, it.2.noRef) := by
  rw [items, items, h.db, List.map_filterMap, List.map_filterMap]
  refine List.filterMap_congr fun e _ => ?_
  have hread := congrArg (Option.map fun di => (e.2, di)) (h.read e.2)
  rw [Option.map_map, Option.map_map] at hread ⊢
  exact hread

theorem inv (h : SameButRefs s s') (hs : Inv s) : Inv s' := by
  have hentries : s'.indexEntries = s.indexEntries := by
    have hvia : ∀ t : VideoDB, t.indexEntries
        = (t.items.map fun it => (it.1, it.2.noRef)).flatMap fun it =>
          (distinctFrames it.2.frames).map fun k => (k, it.1) := by
      intro t
      rw [List.flatMap_map]
      rfl
    rw [hvia, hvia, h.items_eq]
  refine ⟨⟨fun n p hnp => ?_⟩, fun p di hp => ?_, ?_⟩
  · rw [h.db] at hnp
    obtain ⟨di, hread, hname, hdel⟩ := hs.stored n p hnp
    have hsame := h.read p
    rw [hread] at hsame
    obtain ⟨di', hread', hnoRef⟩ := Option.map_eq_some_iff.mp hsame
    obtain ⟨hn, -, -, hd⟩ := DataItem.of_noRef_eq hnoRef
    exact ⟨di', hread', hn.trans hname, hd.trans hdel⟩
  · have hmem := List.mem_map_of_mem (f := fun it : Nat × DataItem => (it.1, it.2.noRef)) hp
    rw [h.items_eq] at hmem
    obtain ⟨⟨q, di₀⟩, hq, heq⟩ := List.mem_map.mp hmem
    obtain ⟨-, hframes, hcnt, -⟩ := DataItem.of_noRef_eq (Prod.mk.inj heq).2
    rw [← hcnt, ← hframes, hs.counted q di₀ hq]
  · rw [hentries, h.table]; exact hs.index

theorem content_eq (h : SameButRefs s s') (hs : Inv s) : s'.content = s.content := by
  have hvia : ∀ {t : VideoDB}, Inv t → t.content
      = (t.items.map fun it => (it.1, it.2.noRef)).map fun it => (it.2.name, it.2.frames) := by
    intro t ht
    rw [ht.content_eq, List.map_map]
    rfl
  rw [hvia (h.inv hs), hvia hs, h.items_eq]

end SameButRefs

/-- Every object stored in `s` is stored in `s'` at its address, with the
name, the frames and the count it had. -/
def Extends (s s' : VideoDB) : Prop :=
  ∀ p di, (p, di) ∈ s.items → ∃ di', (p, di') ∈ s'.items ∧ di'.noRef = di.noRef

namespace Extends

variable {s s' s'' : VideoDB}

theorem refl (s : VideoDB) : Extends s s := fun _ di hp => ⟨di, hp, rfl⟩

theorem trans (h : Extends s s') (h' : Extends s' s'') : Extends s s'' := by
  intro p di hp
  obtain ⟨di', hp', heq⟩ := h p di hp
  obtain ⟨di'', hp'', heq'⟩ := h' p di' hp'
  exact ⟨di'', hp'', heq'.trans heq⟩

theorem of_sameButRefs (h : SameButRefs s s') : Extends s s' := by
  intro p di hp
  have hmem := List.mem_map_of_mem (f := fun it : Nat × DataItem => (it.1, it.2.noRef)) hp
  rw [← h.items_eq] at hmem
  obtain ⟨⟨q, di'⟩, hq, heq⟩ := List.mem_map.mp hmem
  obtain ⟨rfl, hnoRef⟩ := Prod.mk.inj heq
  exact ⟨di', hq, hnoRef⟩

/-- `Add` leaves the stored objects alone. -/
theorem of_add (hs : Inv s) {o : HashOrder} {item : DataItem} {r : Int}
    (h : add o s item = some (r, s')) : Extends s s' := by
  rcases add_spec hs o item with ⟨-, hrej⟩ | ⟨-, t, hacc, -, -, hitems⟩
  · rw [h] at hrej
    cases hrej
    exact refl s
  · rw [h] at hacc
    cases hacc
    intro p di hp
    exact ⟨di, by rw [hitems]; exact List.mem_append_left _ hp, rfl⟩

end Extends

end VideoDB

end VideoMatch.Server
