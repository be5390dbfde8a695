/-
VideoMatch.Server.LoadTheorems — the loops of `Load`, and what it makes
of an arbitrary file.

The walk over the records keeps the store linked and counts every hash it
reads (`loadRecord_cases` for an arbitrary file, `loadRecords_iff` for one
in the format). The loop that indexes every object then turns a linked
store into one that satisfies the invariant (`indexAll_spec`).

Two results follow about `Load` into a fresh store:

* `loadFile_sound`: whatever the file, if `Load` comes back then the store
  satisfies the invariant and its catalogue is encodable;
* `agrees_loadFile`: a `Load` that succeeds does the same when more bytes
  follow, so it reads only inside the file it was given.
-/
import VideoMatch.Server.SaveTheorems

namespace VideoMatch.Server

open VideoMatch.Cxx

/-- How many of the hashes have each shortened key. -/
def slotsOf (hashes : List UInt64) : VideoDB.SlotCount := fun b =>
  hashes.countP fun h => keyShorten h = b

theorem slotsOf_append (as bs : List UInt64) (b : UInt32) :
    slotsOf (as ++ bs) b = slotsOf as b + slotsOf bs b := List.countP_append

/-- A catalogue the file format can hold: the counts fit an `int`, those
of each shortened key too, and no name contains a NUL. -/
structure Catalogue.Encodable (c : Catalogue) : Prop where
  card : c.videos.card < 2 ^ 31
  names : ∀ v ∈ c.videos, 0 ∉ v.1
  frames : ∀ v ∈ c.videos, v.2.length < 2 ^ 31
  slots : ∀ b, (c.videos.map fun v => slotsOf v.2 b).sum < 2 ^ 31

/-- The part of it that is about counts: names may contain a NUL. -/
structure Catalogue.Fits (c : Catalogue) : Prop where
  card : c.videos.card < 2 ^ 31
  frames : ∀ v ∈ c.videos, v.2.length < 2 ^ 31
  slots : ∀ b, (c.videos.map fun v => slotsOf v.2 b).sum < 2 ^ 31

theorem Catalogue.Encodable.fits {c : Catalogue} (h : c.Encodable) : c.Fits :=
  ⟨h.card, h.frames, h.slots⟩

/-- One video, with a name and a number of frames that the format can hold. -/
theorem Catalogue.encodable_single {c : Catalogue} {name : Bytes} {frames : List UInt64}
    (h : c.videos = {(name, frames)}) (hname : 0 ∉ name) (hframes : frames.length < 2 ^ 31) :
    c.Encodable := by
  refine ⟨?_, ?_, ?_, fun b => ?_⟩
  · rw [h, Multiset.card_singleton]
    norm_num
  · simpa [h] using hname
  · simpa [h] using hframes
  · have hle : slotsOf frames b ≤ frames.length := List.countP_le_length
    rw [h, Multiset.map_singleton, Multiset.sum_singleton]
    exact hle.trans_lt hframes

theorem Catalogue.short_single {c : Catalogue} {name : Bytes} {frames : List UInt64}
    (h : c.videos = {(name, frames)}) (hname : name.length ≤ 8183) :
    ∀ n ∈ c.names, n.length ≤ 8183 := by
  rw [Catalogue.names, h, Multiset.map_singleton]
  intro n hn
  rwa [Multiset.mem_singleton.mp hn]

/-- The hashes of a list of videos, by shortened key. -/
theorem slotsOf_flatMap (vs : List Video) (b : UInt32) :
    slotsOf (vs.flatMap Prod.snd) b = (vs.map fun v => slotsOf v.2 b).sum := by
  rw [slotsOf, List.countP_flatMap]
  rfl

namespace VideoDB

/-! ## Counting hashes -/

theorem countSlot_eq {seen : List UInt64} {h : UInt64}
    (hlt : slotsOf (seen ++ [h]) (keyShorten h) < 2 ^ 31) :
    countSlot (slotsOf seen) (keyShorten h) = some (slotsOf (seen ++ [h])) := by
  have hself : slotsOf [h] (keyShorten h) = 1 := by simp [slotsOf]
  rw [slotsOf_append, hself] at hlt
  rw [countSlot, if_pos hlt]
  refine congrArg some (funext fun b => ?_)
  by_cases hb : b = keyShorten h
  · subst hb
    rw [Function.update_self, slotsOf_append, hself]
  · have hother : slotsOf [h] b = 0 := by simp [slotsOf, Ne.symm hb]
    rw [Function.update_of_ne hb, slotsOf_append, hother, Nat.add_zero]

theorem countSlot_cases {seen : List UInt64} {h : UInt64} {hslotCnt : SlotCount}
    (hcount : countSlot (slotsOf seen) (keyShorten h) = some hslotCnt)
    (hseen : ∀ b, slotsOf seen b < 2 ^ 31) :
    hslotCnt = slotsOf (seen ++ [h]) ∧ ∀ b, slotsOf (seen ++ [h]) b < 2 ^ 31 := by
  have hself : slotsOf [h] (keyShorten h) = 1 := by simp [slotsOf]
  have hlt : slotsOf seen (keyShorten h) + 1 < 2 ^ 31 := by
    by_contra hge
    rw [countSlot, if_neg hge] at hcount
    cases hcount
  have hself' : slotsOf (seen ++ [h]) (keyShorten h) < 2 ^ 31 := by
    rw [slotsOf_append, hself]; exact hlt
  rw [countSlot_eq hself', Option.some.injEq] at hcount
  refine ⟨hcount.symm, fun b => ?_⟩
  by_cases hb : b = keyShorten h
  · rw [hb]; exact hself'
  · have hother : slotsOf [h] b = 0 := by simp [slotsOf, Ne.symm hb]
    rw [slotsOf_append, hother]
    exact hseen b

theorem countSlot_eq_some_iff {seen : List UInt64} {h : UInt64} {hslotCnt : SlotCount}
    (hseen : ∀ b, slotsOf seen b < 2 ^ 31) :
    countSlot (slotsOf seen) (keyShorten h) = some hslotCnt ↔
      (∀ b, slotsOf (seen ++ [h]) b < 2 ^ 31) ∧ hslotCnt = slotsOf (seen ++ [h]) := by
  constructor
  · intro hcount
    exact (countSlot_cases hcount hseen).symm
  · intro hcond
    obtain ⟨hslots, rfl⟩ := hcond
    exact countSlot_eq (hslots _)

/-! ## The records of an arbitrary file -/

/-- What one record does, whatever the bytes are: an object with a NUL-free
name is stored, and its hashes are counted. -/
theorem loadRecord_cases {file : Bytes} {st st' : Loading} (h : loadRecord file st = some st') :
    ∃ vn frames, 0 ∉ vn ∧ frames.length < 2 ^ 31 ∧
      st'.vdb = st.vdb.storeNew (DataItem.ofFrames vn frames) ∧
      ∀ seen, st.hslotCnt = slotsOf seen → (∀ b, slotsOf seen b < 2 ^ 31) →
        st'.hslotCnt = slotsOf (seen ++ frames) ∧ ∀ b, slotsOf (seen ++ frames) b < 2 ^ 31 := by
  simp only [loadRecord, Option.bind_eq_bind, Option.bind_eq_some_iff] at h
  obtain ⟨vnlen, -, vn, hvn, skip, -, fc, hfc, ⟨s, hslotCnt, frames⟩, hloop, h⟩ := h
  cases h
  have hlen : frames.length = fc.toNat := by
    have hcount := times_inv (P := fun k (t : Int × SlotCount × List UInt64) => t.2.2.length = k)
      (f := loadFrame file) (fun k t t' hk ht => by
        simp only [loadFrame, Option.bind_eq_bind, Option.bind_eq_some_iff] at ht
        obtain ⟨hash, -, hs, -, ht⟩ := ht
        cases ht
        simp [hk]) fc.toNat 0 hloop rfl
    simpa using hcount
  refine ⟨vn, frames, zero_not_mem_of_cstrAt hvn, ?_, rfl, fun seen hst hseen => ?_⟩
  · have hlt := lt_of_intAt hfc
    omega
  · have hslots := times_inv
      (P := fun _ (t : Int × SlotCount × List UInt64) => t.2.1 = slotsOf (seen ++ t.2.2) ∧
        ∀ b, slotsOf (seen ++ t.2.2) b < 2 ^ 31)
      (f := loadFrame file) (fun k t t' hk ht => by
        simp only [loadFrame, Option.bind_eq_bind, Option.bind_eq_some_iff] at ht
        obtain ⟨hash, -, hs, hcount, ht⟩ := ht
        cases ht
        rw [hk.1] at hcount
        simpa using countSlot_cases hcount hk.2) fc.toNat 0 hloop (by simpa using ⟨hst, hseen⟩)
    exact hslots

/-- What holds of the walk after `k` records. -/
structure Parsed (k : Nat) (st : Loading) : Prop where
  linked : Linked st.vdb
  table : st.vdb.table = UnorderedMap.empty
  length : st.vdb.db.entries.length ≤ k
  videos : ∀ v ∈ st.vdb.content, 0 ∉ v.1 ∧ v.2.length < 2 ^ 31
  slots : ∃ seen, st.hslotCnt = slotsOf seen ∧ (∀ b, slotsOf seen b < 2 ^ 31) ∧
    ∀ b, slotsOf (st.vdb.content.flatMap Prod.snd) b ≤ slotsOf seen b

/-- What an object that comes in adds to the content. -/
theorem content_storeNew {s : VideoDB} (hs : Linked s) (vn : Bytes) (frames : List UInt64) :
    (s.storeNew (DataItem.ofFrames vn frames)).content
      = if s.db.find? vn = none then s.content ++ [(vn, frames)] else s.content := by
  have hlinked : Linked (s.storeNew (DataItem.ofFrames vn frames)) := hs.storeNew rfl
  rw [hlinked.content_eq, hs.content_eq]
  split
  · next hnew =>
      rw [items_storeNew hs hnew]
      simp [DataItem.ofFrames]
  · next htaken =>
      obtain ⟨p, hp⟩ := Option.ne_none_iff_exists'.mp htaken
      rw [items_storeNew_of_some hs hp]

theorem Parsed.step {file : Bytes} {k : Nat} {st st' : Loading} (hst : Parsed k st)
    (h : loadRecord file st = some st') : Parsed (k + 1) st' := by
  obtain ⟨vn, frames, hvn, hlen, hvdb, hcount⟩ := loadRecord_cases h
  obtain ⟨seen, hseen, hbound, hle⟩ := hst.slots
  obtain ⟨hcnt, hbound'⟩ := hcount seen hseen hbound
  have hcontent := content_storeNew hst.linked vn frames
  have hsub : ∀ v ∈ (st.vdb.storeNew (DataItem.ofFrames vn frames)).content,
      v ∈ st.vdb.content ∨ v = (vn, frames) := by
    intro v hv
    rw [hcontent] at hv
    split at hv
    · simpa using hv
    · exact .inl hv
  refine ⟨?_, ?_, ?_, ?_, seen ++ frames, hcnt, hbound', fun b => ?_⟩
  · rw [hvdb]; exact hst.linked.storeNew rfl
  · rw [hvdb]; exact hst.table
  · rw [hvdb]
    have hins := st.vdb.db.length_insert_le vn st.vdb.heap.next
    exact hins.trans (Nat.succ_le_succ hst.length)
  · intro v hv
    rw [hvdb] at hv
    rcases hsub v hv with hv | rfl
    · exact hst.videos v hv
    · exact ⟨hvn, hlen⟩
  · rw [hvdb, hcontent, slotsOf_append]
    have hb := hle b
    split
    · rw [List.flatMap_append, slotsOf_append]
      simpa using hb
    · omega

/-! ## The index -/

theorem indexes_reserveBlocks (hslotCnt : SlotCount) {table : UnorderedMap UInt32 KeyBlock}
    {es : KeyBlock} (h : Indexes table es) : Indexes (reserveBlocks hslotCnt table) es := by
  unfold reserveBlocks
  induction List.range (2 ^ HSIZE_BITS) generalizing table with
  | nil => exact h
  | cons i is ih =>
      rw [List.foldl_cons]
      split
      · exact ih (h.insert_nil _)
      · exact ih h

/-- A key is counted if a hash has it, and all keys are below the bound of
the loop. -/
theorem mem_slots_iff {hashes : List UInt64} {b : UInt32} :
    slotsOf hashes b ≠ 0 ∧ b.toNat < 2 ^ HSIZE_BITS ↔ ∃ h ∈ hashes, keyShorten h = b := by
  have hcnt : slotsOf hashes b ≠ 0 ↔ ∃ h ∈ hashes, keyShorten h = b := by
    rw [slotsOf, ← Nat.pos_iff_ne_zero, List.countP_pos_iff]
    simp only [decide_eq_true_eq]
  rw [hcnt, and_iff_left_iff_imp]
  intro h
  obtain ⟨h, -, rfl⟩ := h
  have hlt : h.toNat < 2 ^ 64 := h.toNat_lt
  rw [toNat_keyShorten, HSIZE_BITS]
  omega

/-- The blocks that `Load` creates in advance are those of the hashes it
counted. -/
theorem reserves_reserveBlocks (hslotCnt : SlotCount)
    {table : UnorderedMap UInt32 KeyBlock} (h : Reserves table ∅) :
    Reserves (reserveBlocks hslotCnt table) {b | hslotCnt b ≠ 0 ∧ b.toNat < 2 ^ HSIZE_BITS} := by
  have hfold : ∀ (is : List Nat) {table : UnorderedMap UInt32 KeyBlock} {R : Set UInt32},
      Reserves table R → Reserves (is.foldl (fun table i =>
        if hslotCnt (UInt32.ofNat i) ≠ 0 then table.insert (UInt32.ofNat i) [] else table) table)
        (R ∪ {b | hslotCnt b ≠ 0 ∧ ∃ i ∈ is, UInt32.ofNat i = b}) := by
    intro is
    induction is with
    | nil => intro table R h; simpa using h
    | cons i is ih =>
        intro table R h
        rw [List.foldl_cons]
        split
        · next hcnt =>
            convert ih (h.insert_nil (UInt32.ofNat i)) using 1
            ext b
            simp only [Set.mem_union, Set.mem_ofPred_eq, List.mem_cons, Set.insert]
            grind
        · next hcnt =>
            convert ih h using 1
            ext b
            simp only [Set.mem_union, Set.mem_ofPred_eq, List.mem_cons]
            grind
  have h := hfold (List.range (2 ^ HSIZE_BITS)) h
  rw [Set.empty_union] at h
  unfold reserveBlocks
  convert h using 1
  ext b
  simp only [Set.mem_ofPred_eq, List.mem_range, and_congr_right_iff]
  intro _
  constructor
  · intro hlt
    exact ⟨b.toNat, hlt, UInt32.ofNat_toNat⟩
  · intro h
    obtain ⟨i, hi, rfl⟩ := h
    rw [UInt32.toNat_ofNat']
    exact (Nat.mod_le _ _).trans_lt hi

/-- The pairs of one entry of `db`. -/
def entryPairs (s : VideoDB) (e : Bytes × Nat) : KeyBlock :=
  match s.heap.read e.2 with
  | none => []
  | some di => (distinctFrames di.frames).map fun h => (h, e.2)

theorem flatMap_entryPairs (s : VideoDB) :
    s.db.entries.flatMap (entryPairs s) = s.indexEntries := by
  rw [indexEntries, items]
  induction s.db.entries with
  | nil => rfl
  | cons e es ih =>
      rw [List.flatMap_cons, ih]
      cases hread : s.heap.read e.2 <;> simp [hread, entryPairs]

/-- The store `s` after the objects of `done` have been indexed. -/
structure IndexedUpTo (s : VideoDB) (done : List (Bytes × Nat)) (s' : VideoDB) : Prop where
  linked : Linked s'
  db : s'.db = s.db
  items : s'.items = s.items.map fun it =>
    if it.1 ∈ done.map Prod.snd then (it.1, it.2.counted) else it
  index : Indexes s'.table (done.flatMap (entryPairs s))

theorem IndexedUpTo.step {s s₁ : VideoDB} {done : List (Bytes × Nat)} {e : Bytes × Nat}
    (hs : Linked s) (h : IndexedUpTo s done s₁) (he : e ∈ s.db.entries) (o : HashOrder) :
    ∃ s₂, addFramesToIndex o s₁ e.2 = some s₂ ∧ IndexedUpTo s (done ++ [e]) s₂ := by
  obtain ⟨di, hread, -⟩ := hs.stored e.1 e.2 he
  have hitem : (e.2, di) ∈ s.items := mem_items.mpr ⟨⟨e.1, he⟩, hread⟩
  -- the object may have been counted before, which leaves its frames alone
  obtain ⟨item, hread₁, hframes⟩ : ∃ item, s₁.heap.read e.2 = some item ∧
      item.frames = di.frames := by
    have hmem := List.mem_map_of_mem (f := fun it : Nat × DataItem =>
      if it.1 ∈ done.map Prod.snd then (it.1, it.2.counted) else it) hitem
    rw [← h.items] at hmem
    split at hmem
    · exact ⟨_, (mem_items.mp hmem).2, rfl⟩
    · exact ⟨_, (mem_items.mp hmem).2, rfl⟩
  obtain ⟨table, hadd, hindex⟩ := addFramesToIndex_spec o s₁ hread₁
  refine ⟨_, hadd, ?_, h.db, ?_, ?_⟩
  · exact h.linked.modify _ DataItem.counted (fun _ => rfl) (fun _ => rfl) table
  · rw [items_modify, h.items, List.map_map]
    refine List.map_congr_left fun it _ => ?_
    have hsplit : it.1 ∈ (done ++ [e]).map Prod.snd ↔ it.1 ∈ done.map Prod.snd ∨ it.1 = e.2 := by
      simp
    simp only [Function.comp_apply, hsplit]
    by_cases hdone : it.1 ∈ done.map Prod.snd
    · rw [if_pos hdone, if_pos (Or.inl hdone)]
      exact ite_self _
    · rw [if_neg hdone]
      exact if_congr (by rw [or_iff_right hdone]) rfl rfl
  · have hpairs : (done ++ [e]).flatMap (entryPairs s) = done.flatMap (entryPairs s) ++
        (distinctFrames item.frames).map fun h => (h, e.2) := by
      rw [List.flatMap_append, List.flatMap_singleton, hframes]
      simp only [entryPairs, hread]
    rw [hpairs]
    exact hindex _ h.index

theorem indexAll_eq {s : VideoDB} (hs : Linked s) (htable : Indexes s.table []) (o : HashOrder) :
    ∃ s', (o.videos.order s.db.entries).foldlM (fun vdb i => addFramesToIndex o vdb i.2) s
        = some s' ∧ Inv s' ∧ s'.content = s.content := by
  obtain ⟨s', hfold, h⟩ := foldlM_all (P := IndexedUpTo s)
    (f := fun vdb (i : Bytes × Nat) => addFramesToIndex o vdb i.2) (o.videos.order s.db.entries) s
    (fun done e rest s₁ hsplit h => by
      have hmem : e ∈ o.videos.order s.db.entries := by rw [hsplit]; simp
      exact h.step hs (o.videos.mem_order.mp hmem) o)
    ⟨hs, rfl, by simp, htable⟩
  have hitems : s'.items = s.items.map fun it => (it.1, it.2.counted) := by
    rw [h.items]
    refine List.map_congr_left fun it hit => if_pos ?_
    obtain ⟨⟨n, hn⟩, -⟩ := mem_items.mp hit
    exact List.mem_map.mpr ⟨(n, it.1), o.videos.mem_order.mpr hn, rfl⟩
  refine ⟨s', hfold, ⟨h.linked, fun p di hp => ?_, ?_⟩, ?_⟩
  · rw [hitems] at hp
    obtain ⟨it, -, heq⟩ := List.mem_map.mp hp
    cases heq
    rfl
  · have hentries : s'.indexEntries = s.indexEntries := by
      rw [indexEntries, hitems, List.flatMap_map]
      rfl
    rw [hentries, ← flatMap_entryPairs]
    exact h.index.perm ((o.videos.perm _).flatMap_right _)
  · rw [h.linked.content_eq, hs.content_eq, hitems, List.map_map]
    rfl

/-- The loop that indexes every object, from a table of empty blocks. -/
theorem indexAll_spec {s : VideoDB} (hs : Linked s) {table : UnorderedMap UInt32 KeyBlock}
    (htable : Indexes table []) (o : HashOrder) :
    ∃ s', (o.videos.order s.db.entries).foldlM (fun vdb i => addFramesToIndex o vdb i.2)
        { s with table := table } = some s' ∧ Inv s' ∧ s'.content = s.content := by
  have hs₁ : Linked { s with table := table } := ⟨hs.stored⟩
  exact indexAll_eq hs₁ htable o

/-! ## Loading an arbitrary file -/

theorem parsed_fresh (pos : Int) : Parsed 0 ⟨pos, fun _ => 0, fresh⟩ :=
  ⟨linked_fresh, rfl, Nat.le_refl 0, fun v hv => by simp [content, fresh] at hv,
    [], rfl, fun b => by simp [slotsOf], fun b => by simp [content, fresh]⟩

/-- Whatever the file holds: if `Load` into a fresh store comes back, the
store satisfies the invariant and holds what a file can hold. -/
theorem loadFile_sound {o : HashOrder} {file : Bytes} {r : Int} {s : VideoDB}
    (h : loadFile o file fresh = some (r, s)) : r = 0 ∧ Inv s ∧ s.catalogue.Encodable := by
  simp only [loadFile, Option.bind_eq_bind, Option.bind_eq_some_iff] at h
  obtain ⟨sig, -, dbSize, hsize, kbNum, -, st, hrecords, vdb, hindex, pos, -, h⟩ := h
  cases h
  have hparsed := times_inv (P := Parsed) (f := loadRecord file) (fun k st st' => Parsed.step)
    dbSize.toNat 0 hrecords (parsed_fresh _)
  rw [Nat.zero_add] at hparsed
  obtain ⟨hlinked, htable, hlen, hvideos, seen, -, hbound, hle⟩ := hparsed
  have hreserved : Indexes (reserveBlocks st.hslotCnt st.vdb.table) [] :=
    indexes_reserveBlocks _ (by rw [htable]; exact indexes_empty)
  obtain ⟨s', hs', hinv, hcontent⟩ := indexAll_spec hlinked hreserved o
  rw [hindex, Option.some.injEq] at hs'
  subst hs'
  have hcat : s.catalogue.videos = (st.vdb.content : Multiset Video) :=
    congrArg _ hcontent
  refine ⟨rfl, hinv, ?_, ?_, ?_, ?_⟩
  · have hlt := lt_of_intAt hsize
    rw [hcat, Multiset.coe_card, hlinked.length_content]
    omega
  · rw [hcat]; exact fun v hv => (hvideos v hv).1
  · rw [hcat]; exact fun v hv => (hvideos v hv).2
  · intro b
    rw [hcat, Multiset.map_coe, Multiset.sum_coe, ← slotsOf_flatMap]
    exact (hle b).trans_lt (hbound b)

/-! ## The records of a written file -/

/-- The frames of a record are read back, unless a counter overflows. -/
theorem loadFrames_iff {file rest : Bytes} : ∀ (frames acc : List UInt64) {s : Int}
    {seen : List UInt64} {t : Int × SlotCount × List UInt64},
    Ahead file s (frames.flatMap u64Bytes ++ rest) → (∀ b, slotsOf seen b < 2 ^ 31) →
    (times (loadFrame file) frames.length (s, slotsOf seen, acc) = some t ↔
      (∀ b, slotsOf (seen ++ frames) b < 2 ^ 31) ∧
        t = (s + (frames.flatMap u64Bytes).length, slotsOf (seen ++ frames), acc ++ frames)) := by
  intro frames
  induction frames with
  | nil =>
      intro acc s seen t _ hseen
      simp only [List.length_nil, times, List.flatMap_nil, List.append_nil, Option.some.injEq,
        Nat.cast_zero, Int.add_zero, and_iff_right hseen]
      exact eq_comm
  | cons f frames ih =>
      intro acc s seen t h hseen
      rw [List.flatMap_cons, List.append_assoc] at h
      have hnext : Ahead file (s + 8) (frames.flatMap u64Bytes ++ rest) := by
        simpa using h.advance
      have hpos : s + ((f :: frames).flatMap u64Bytes).length
          = s + 8 + (frames.flatMap u64Bytes).length := by
        rw [List.flatMap_cons, List.length_append, length_u64Bytes]
        push_cast
        ring
      have hseen' : seen ++ f :: frames = seen ++ [f] ++ frames := by simp
      have hacc : acc ++ f :: frames = acc ++ [f] ++ frames := by simp
      rw [hpos, hseen', hacc]
      simp only [List.length_cons, times, loadFrame, h.u64At_eq, Option.bind_eq_bind,
        Option.bind_some, Option.bind_assoc, Option.bind_eq_some_iff]
      constructor
      · intro hload
        obtain ⟨cnt, hcnt, hload⟩ := hload
        obtain ⟨hone, rfl⟩ := (countSlot_eq_some_iff hseen).mp hcnt
        exact (ih _ hnext hone).mp hload
      · intro hslots
        have hone : ∀ b, slotsOf (seen ++ [f]) b < 2 ^ 31 := fun b => by
          have hb := hslots.1 b
          rw [slotsOf_append] at hb
          omega
        exact ⟨_, (countSlot_eq_some_iff hseen).mpr ⟨hone, rfl⟩, (ih _ hnext hone).mpr hslots⟩

/-- The object of a record: its name ends at the first NUL. -/
def recordItem (v : Video) : DataItem := DataItem.ofFrames (v.1.takeWhile (· ≠ 0)) v.2

/-- A record is read back, unless the skip over its name or a counter
overflows. -/
theorem loadRecord_iff {file rest : Bytes} {v : Video} {seen : List UInt64} {s : Int}
    {vdb : VideoDB} {st : Loading} (h : Ahead file s (encodeVideo v ++ rest))
    (hlen : v.1.length < 2 ^ 31) (hframes : v.2.length < 2 ^ 31)
    (hseen : ∀ b, slotsOf seen b < 2 ^ 31) :
    loadRecord file ⟨s, slotsOf seen, vdb⟩ = some st ↔
      (v.1.length + 1 < 2 ^ 31 ∧ ∀ b, slotsOf (seen ++ v.2) b < 2 ^ 31) ∧
        st = ⟨s + (encodeVideo v).length, slotsOf (seen ++ v.2), vdb.storeNew (recordItem v)⟩ := by
  simp only [encodeVideo, encodeHeader, List.append_assoc] at h
  have h₁ : Ahead file (s + 4)
      (v.1 ++ 0 :: (intBytes (toInt v.2.length) ++ (v.2.flatMap u64Bytes ++ rest))) := by
    simpa using h.advance
  have h₂ : Ahead file (s + 4 + (v.1.length + 1))
      (intBytes (toInt v.2.length) ++ (v.2.flatMap u64Bytes ++ rest)) := by
    have hname : v.1 ++ 0 :: (intBytes (toInt v.2.length) ++ (v.2.flatMap u64Bytes ++ rest))
        = (v.1 ++ [0]) ++ (intBytes (toInt v.2.length) ++ (v.2.flatMap u64Bytes ++ rest)) := by
      simp
    rw [hname] at h₁
    simpa using h₁.advance
  have h₃ : Ahead file (s + 4 + (v.1.length + 1) + 4) (v.2.flatMap u64Bytes ++ rest) := by
    simpa using h₂.advance
  have hpos : s + 4 + (v.1.length + 1) + 4 + (v.2.flatMap u64Bytes).length
      = s + (encodeVideo v).length := by
    rw [encodeVideo, List.length_append, length_encodeHeader]
    push_cast
    ring
  simp only [loadRecord, h.intAt_eq, h₁.cstrAt_eq, Option.bind_eq_bind, Option.bind_some,
    Option.bind_eq_some_iff]
  constructor
  · intro hload
    obtain ⟨skip, hskip, fc, hfc, t, hloop, hst⟩ := hload
    obtain ⟨hshort, rfl⟩ := (intSucc_toInt_iff hlen).mp hskip
    rw [h₂.intAt_eq, Option.some.injEq] at hfc
    rw [← hfc, toNat_toInt_of_lt hframes, loadFrames_iff v.2 [] h₃ hseen] at hloop
    obtain ⟨hslots, rfl⟩ := hloop
    rw [hpos, Option.some.injEq] at hst
    exact ⟨⟨hshort, hslots⟩, hst.symm⟩
  · intro hcond
    obtain ⟨⟨hshort, hslots⟩, rfl⟩ := hcond
    refine ⟨_, (intSucc_toInt_iff hlen).mpr ⟨hshort, rfl⟩, _, h₂.intAt_eq,
      (s + (encodeVideo v).length, slotsOf (seen ++ v.2), v.2), ?_, rfl⟩
    rw [toNat_toInt_of_lt hframes, loadFrames_iff v.2 [] h₃ hseen, ← hpos]
    exact ⟨hslots, rfl⟩

/-- The store after the objects of the records have been put in. -/
def storeRecords (vdb : VideoDB) (vs : List Video) : VideoDB :=
  vs.foldl (fun vdb v => vdb.storeNew (recordItem v)) vdb

theorem Linked.storeRecords : ∀ (vs : List Video) {vdb : VideoDB}, Linked vdb →
    Linked (storeRecords vdb vs) := by
  intro vs
  induction vs with
  | nil => intro vdb hvdb; exact hvdb
  | cons v vs ih => intro vdb hvdb; exact ih (hvdb.storeNew rfl)

theorem table_storeRecords : ∀ (vs : List Video) (vdb : VideoDB),
    (storeRecords vdb vs).table = vdb.table := by
  intro vs
  induction vs with
  | nil => intro vdb; rfl
  | cons v vs ih => intro vdb; exact ih _

/-- Videos with distinct names of full length all come in. -/
theorem content_storeRecords : ∀ (vs : List Video) {vdb : VideoDB}, Linked vdb →
    (∀ v ∈ vs, 0 ∉ v.1) → (vdb.db.entries.map Prod.fst ++ vs.map Prod.fst).Nodup →
    (storeRecords vdb vs).content = vdb.content ++ vs := by
  intro vs
  induction vs with
  | nil => intro vdb _ _ _; simp [storeRecords]
  | cons v vs ih =>
      intro vdb hlinked hnames hnodup
      have hname : recordItem v = DataItem.ofFrames v.1 v.2 := by
        rw [recordItem, takeWhile_ne_zero (hnames v (by simp))]
      have hnew : vdb.db.find? v.1 = none := by
        rw [UnorderedMap.find?_eq_none_iff]
        intro hmem
        exact (List.disjoint_of_nodup_append hnodup) hmem (by simp)
      have hentries : (vdb.storeNew (DataItem.ofFrames v.1 v.2)).db.entries
          = vdb.db.entries ++ [(v.1, vdb.heap.next)] := vdb.db.entries_insert_of_none _ hnew
      have hnodup' : ((vdb.storeNew (DataItem.ofFrames v.1 v.2)).db.entries.map Prod.fst
          ++ vs.map Prod.fst).Nodup := by
        rw [hentries]
        simpa using hnodup
      have hlinked' : Linked (vdb.storeNew (DataItem.ofFrames v.1 v.2)) := hlinked.storeNew rfl
      have hrest := ih hlinked' (fun w hw => hnames w (List.mem_cons_of_mem _ hw)) hnodup'
      rw [content_storeNew hlinked, if_pos hnew, List.append_assoc] at hrest
      rw [storeRecords, List.foldl_cons, hname]
      exact hrest

/-- The records are read back, unless the skip over a name or a counter
overflows. -/
theorem loadRecords_iff {file rest : Bytes} : ∀ (vs : List Video) {s : Int} {seen : List UInt64}
    {vdb : VideoDB} {st : Loading}, Ahead file s (vs.flatMap encodeVideo ++ rest) →
    (∀ v ∈ vs, v.1.length < 2 ^ 31 ∧ v.2.length < 2 ^ 31) → (∀ b, slotsOf seen b < 2 ^ 31) →
    (times (loadRecord file) vs.length ⟨s, slotsOf seen, vdb⟩ = some st ↔
      ((∀ v ∈ vs, v.1.length + 1 < 2 ^ 31) ∧
        ∀ b, slotsOf (seen ++ vs.flatMap Prod.snd) b < 2 ^ 31) ∧
      st = ⟨s + (vs.flatMap encodeVideo).length, slotsOf (seen ++ vs.flatMap Prod.snd),
        storeRecords vdb vs⟩) := by
  intro vs
  induction vs with
  | nil =>
      intro s seen vdb st _ _ hseen
      simp only [List.length_nil, times, List.flatMap_nil, List.append_nil, Option.some.injEq,
        Nat.cast_zero, Int.add_zero, List.not_mem_nil, false_implies, implies_true, true_and,
        and_iff_right hseen]
      exact eq_comm
  | cons v vs ih =>
      intro s seen vdb st h hvs hseen
      rw [List.flatMap_cons, List.append_assoc] at h
      obtain ⟨hlen, hframes⟩ := hvs v (by simp)
      have hrest : ∀ w ∈ vs, w.1.length < 2 ^ 31 ∧ w.2.length < 2 ^ 31 :=
        fun w hw => hvs w (List.mem_cons_of_mem _ hw)
      have hpos : s + ((v :: vs).flatMap encodeVideo).length
          = s + (encodeVideo v).length + (vs.flatMap encodeVideo).length := by
        rw [List.flatMap_cons, List.length_append]
        push_cast
        ring
      have hseen' : seen ++ (v :: vs).flatMap Prod.snd = seen ++ v.2 ++ vs.flatMap Prod.snd := by
        simp
      rw [hpos, hseen', List.forall_mem_cons, List.length_cons, times, Option.bind_eq_some_iff]
      constructor
      · intro hload
        obtain ⟨st₁, hst₁, hload⟩ := hload
        obtain ⟨⟨hshort, hslots⟩, rfl⟩ := (loadRecord_iff h hlen hframes hseen).mp hst₁
        obtain ⟨⟨hshorts, hslots'⟩, rfl⟩ := (ih h.advance hrest hslots).mp hload
        exact ⟨⟨⟨hshort, hshorts⟩, hslots'⟩, rfl⟩
      · intro hcond
        obtain ⟨⟨⟨hshort, hshorts⟩, hslots'⟩, rfl⟩ := hcond
        have hslots : ∀ b, slotsOf (seen ++ v.2) b < 2 ^ 31 := fun b => by
          have hb := hslots' b
          rw [slotsOf_append] at hb
          omega
        exact ⟨_, (loadRecord_iff h hlen hframes hseen).mpr ⟨⟨hshort, hslots⟩, rfl⟩,
          (ih h.advance hrest hslots).mpr ⟨⟨hshorts, hslots'⟩, rfl⟩⟩

/-- The walk over all records, from where `Load` starts it. -/
theorem loadRecords_fresh_iff {file rest : Bytes} {vs : List Video} {s : Int} {st : Loading}
    (h : Ahead file s (vs.flatMap encodeVideo ++ rest))
    (hvs : ∀ v ∈ vs, v.1.length < 2 ^ 31 ∧ v.2.length < 2 ^ 31) :
    times (loadRecord file) vs.length ⟨s, fun _ => 0, fresh⟩ = some st ↔
      ((∀ v ∈ vs, v.1.length + 1 < 2 ^ 31) ∧ ∀ b, slotsOf (vs.flatMap Prod.snd) b < 2 ^ 31) ∧
      st = ⟨s + (vs.flatMap encodeVideo).length, slotsOf (vs.flatMap Prod.snd),
        storeRecords fresh vs⟩ := by
  have hnone : (fun _ => 0 : SlotCount) = slotsOf [] := by funext b; simp [slotsOf]
  rw [hnone]
  exact loadRecords_iff vs h hvs (by simp [slotsOf])

/-- `add_frames_to_index` leaves no empty block behind. -/
theorem reserves_addFramesToIndex {o : HashOrder} {s s' : VideoDB} {p : Nat} {R : Set UInt32}
    (h : addFramesToIndex o s p = some s') (hs : Reserves s.table R) : Reserves s'.table R := by
  simp only [addFramesToIndex, Option.bind_eq_bind, Option.bind_eq_some_iff] at h
  obtain ⟨item, -, h⟩ := h
  cases h
  exact Reserves.push_all p _ hs

theorem reserves_indexAll {o : HashOrder} {R : Set UInt32} : ∀ (es : List (Bytes × Nat))
    {s s' : VideoDB}, es.foldlM (fun vdb i => addFramesToIndex o vdb i.2) s = some s' →
    Reserves s.table R → Reserves s'.table R := by
  intro es
  induction es with
  | nil => intro s s' h hs; cases h; exact hs
  | cons e es ih =>
      intro s s' h hs
      rw [List.foldlM_cons, Option.bind_eq_bind, Option.bind_eq_some_iff] at h
      obtain ⟨t, ht, h⟩ := h
      exact ih h (reserves_addFramesToIndex ht hs)

/-! ## Longer files -/

theorem agrees_loadFrame (file more : Bytes) (st : Int × SlotCount × List UInt64) :
    Agrees (loadFrame file st) (loadFrame (file ++ more) st) :=
  (agrees_u64At file more _).bind fun _ => .refl _

theorem agrees_loadRecord (file more : Bytes) (st : Loading) :
    Agrees (loadRecord file st) (loadRecord (file ++ more) st) :=
  (agrees_intAt file more _).bind fun _ => (agrees_cstrAt file more _).bind fun _ =>
    (Agrees.refl _).bind fun _ => (agrees_intAt file more _).bind fun _ =>
      (Agrees.times (agrees_loadFrame file more) _ _).bind fun _ => .refl _

theorem agrees_skipPair (file more : Bytes) (s : Int) :
    Agrees (skipPair file s) (skipPair (file ++ more) s) :=
  (agrees_u64At file more _).bind fun _ => (agrees_intAt file more _).bind fun _ =>
    (agrees_cstrAt file more _).bind fun _ => (Agrees.refl _).bind fun _ => .refl _

theorem agrees_skipBlock (file more : Bytes) (s : Int) :
    Agrees (skipBlock file s) (skipBlock (file ++ more) s) :=
  (agrees_intAt file more _).bind fun _ => Agrees.times (agrees_skipPair file more) _ _

/-- A `Load` that succeeds reads only inside its file: it does the same
when more bytes follow. -/
theorem agrees_loadFile (o : HashOrder) (file more : Bytes) (vdb : VideoDB) :
    Agrees (loadFile o file vdb) (loadFile o (file ++ more) vdb) :=
  (agrees_bytesAt file more _ _).bind fun _ => (agrees_intAt file more _).bind fun _ =>
    (agrees_intAt file more _).bind fun _ =>
      (Agrees.times (agrees_loadRecord file more) _ _).bind fun _ =>
        (Agrees.refl _).bind fun _ =>
          (Agrees.times (agrees_skipBlock file more) _ _).bind fun _ => .refl _

end VideoDB

end VideoMatch.Server
