/-
VideoMatch.Server.SaveTheorems — what `Save` writes.

`encode vs` is the file format as a function of the videos. `Save` stores
a header and then, for each item, one record header and one piece for
each frame, every piece behind a boundary check that asks for its size
(`saveItem_eq`). The general facts about guarded pieces then say when all
stores stay inside the block (`saveBlocks_isSome_iff`), what the blocks
hold together (`saveBlocks_spec`) and how many there are.

A record header is the only piece without a bound on its size. It fits a
block if the name has at most 8183 bytes.
-/
import VideoMatch.Server.Storage
import VideoMatch.Server.StoreTheorems

namespace VideoMatch.Server

open VideoMatch.Cxx VideoMatch.Machine

/-! ## The file format -/

/-- The header of a video's record. -/
def encodeHeader (v : Video) : Bytes :=
  intBytes (toInt v.1.length) ++ v.1 ++ [0] ++ intBytes (toInt v.2.length)

def encodeVideo (v : Video) : Bytes := encodeHeader v ++ v.2.flatMap u64Bytes

/-- The header of a file with `n` videos. -/
def fileHeader (n : Nat) : Bytes := FILE_SIG ++ intBytes (toInt n) ++ intBytes (toInt 0)

/-- The database file of a list of videos. -/
def encode (vs : List Video) : Bytes := fileHeader vs.length ++ vs.flatMap encodeVideo

theorem length_encodeHeader (v : Video) : (encodeHeader v).length = v.1.length + 9 := by
  simp only [encodeHeader, List.length_append, length_intBytes, List.length_singleton]
  omega

theorem length_fileHeader (n : Nat) : (fileHeader n).length = 21 := by
  have hsig : FILE_SIG.length = 13 := rfl
  simp [fileHeader, hsig]

/-- The pieces of a video's record, with the guards `Save` uses. -/
def videoPieces (v : Video) : List BlockWriter.Piece :=
  (toInt (4 + v.1.length + 1 + 4), encodeHeader v) :: v.2.map fun f => (toInt 8, u64Bytes f)

theorem guarded_videoPieces (v : Video) : BlockWriter.Guarded VideoDB.BS (videoPieces v) := by
  intro p hp hfit
  rcases List.mem_cons.mp hp with rfl | hp
  · simp only [length_encodeHeader, VideoDB.BS] at hfit ⊢
    rw [toInt_of_lt (by omega)]
    push_cast
    omega
  · obtain ⟨f, -, rfl⟩ := List.mem_map.mp hp
    rw [length_u64Bytes, toInt_of_lt (by norm_num)]

/-- Only the name decides whether the pieces of a record fit a block. -/
theorem videoPieces_fit_iff (v : Video) :
    (∀ p ∈ videoPieces v, p.2.length ≤ VideoDB.BS) ↔ v.1.length ≤ 8183 := by
  rw [videoPieces, List.forall_mem_cons, length_encodeHeader]
  have hframes : ∀ p ∈ v.2.map fun f => (toInt 8, u64Bytes f), p.2.length ≤ VideoDB.BS := by
    intro p hp
    obtain ⟨f, -, rfl⟩ := List.mem_map.mp hp
    simp [VideoDB.BS]
  rw [and_iff_left hframes]
  show v.1.length + 9 ≤ 8192 ↔ v.1.length ≤ 8183
  omega

theorem flatMap_videoPieces (v : Video) : (videoPieces v).flatMap Prod.snd = encodeVideo v := by
  simp [videoPieces, encodeVideo, List.flatMap_map]

/-- The number of blocks that the videos take, in this order. -/
def blockCount (vs : List Video) : Nat :=
  BlockWriter.blocksClosed VideoDB.BS 21
    ((vs.flatMap videoPieces).map fun p => p.2.length) + 1

namespace VideoDB

variable {s : VideoDB}

/-- The videos in the order of the walk over `db`. -/
def walk (o : HashOrder) (s : VideoDB) : List Video :=
  (o.videos.order s.db.entries).filterMap fun e => (s.heap.read e.2).map fun di => (e.1, di.frames)

theorem walk_perm (o : HashOrder) (s : VideoDB) : (walk o s).Perm s.content :=
  (o.videos.perm _).filterMap _

theorem coe_walk (o : HashOrder) (s : VideoDB) :
    (walk o s : Multiset Video) = s.catalogue.videos :=
  Multiset.coe_eq_coe.mpr (walk_perm o s)

/-! ## One item -/

/-- `Save` stores the pieces of the item's record and leaves the store as
it was. -/
theorem saveItem_eq (hs : Inv s) (w : BlockWriter BS) {d : Bytes × Nat} {di : DataItem}
    (hd : d ∈ s.db.entries) (hread : s.heap.read d.2 = some di) :
    saveItem (w, s) d = (w.putPieces (videoPieces (d.1, di.frames))).map fun w => (w, s) := by
  obtain ⟨di', hread', -, hdel⟩ := hs.stored d.1 d.2 hd
  rw [hread] at hread'
  cases hread'
  have hinc : incRef s.heap d.2 = some (withRefs s.heap [d.2]) := by
    have h := incRef_withRefs (l := []) hread
    rwa [withRefs_nil] at h
  have hdec : decRef (withRefs s.heap [d.2]) d.2 = some s.heap := by
    have h := decRef_withRefs (l := []) hread hdel
    rwa [withRefs_nil] at h
  have hframes : ∀ (fs : List UInt64) (w : BlockWriter BS),
      fs.foldlM saveFrame w = w.putPieces (fs.map fun f => (toInt 8, u64Bytes f)) := by
    intro fs w
    rw [BlockWriter.putPieces, List.foldlM_map]
    rfl
  simp only [saveItem, hinc, hdec, read_withRefs, hread, Option.map_some, Option.bind_eq_bind,
    Option.bind_some]
  simp only [BlockWriter.put_bind_put_bind, hframes]
  rw [videoPieces, BlockWriter.putPieces_cons, encodeHeader]
  simp only [Option.map_eq_bind, Option.bind_assoc, List.append_assoc]
  rfl

/-! ## The whole file -/

/-- The walk over the items stores the pieces of all records. -/
theorem saveItems_eq (hs : Inv s) : ∀ (es : List (Bytes × Nat)) (w : BlockWriter BS),
    (∀ e ∈ es, e ∈ s.db.entries) →
    es.foldlM saveItem (w, s)
      = (w.putPieces ((es.filterMap fun e =>
          (s.heap.read e.2).map fun di => (e.1, di.frames)).flatMap videoPieces)).map
            fun w => (w, s) := by
  intro es
  induction es with
  | nil => intro w _; rfl
  | cons e es ih =>
      intro w hes
      obtain ⟨di, hread, -⟩ := hs.stored e.1 e.2 (hes e (by simp))
      rw [List.foldlM_cons, saveItem_eq hs w (hes e (by simp)) hread,
        List.filterMap_cons_some (by rw [hread]; rfl), List.flatMap_cons,
        BlockWriter.putPieces_append]
      cases w.putPieces (videoPieces (e.1, di.frames)) with
      | none => rfl
      | some w' => exact ih w' fun e' he' => hes e' (List.mem_cons_of_mem _ he')

/-- `Save` stores the header, then the pieces of the walk, and hands over
the last block. -/
theorem saveBlocks_eq (hs : Inv s) (o : HashOrder) :
    ∃ w : BlockWriter BS, w.block = fileHeader (walk o s).length ∧ w.writes = [] ∧
      saveBlocks o s = (w.putPieces ((walk o s).flatMap videoPieces)).map fun w =>
        (w.flush.writes, s) := by
  have hlen : (walk o s).length = s.db.entries.length := by
    rw [(walk_perm o s).length_eq, hs.length_content]
  have hmerge : saveHeader s (BlockWriter.start BS)
      = (BlockWriter.start BS).put (fileHeader (walk o s).length) := by
    simp only [saveHeader, Option.bind_eq_bind, BlockWriter.put_bind_put, fileHeader, hlen,
      List.append_assoc]
  have hroom : ((BlockWriter.start BS).put (fileHeader (walk o s).length)).isSome := by
    rw [BlockWriter.put_isSome_iff, length_fileHeader]
    decide
  obtain ⟨w, hw⟩ := Option.isSome_iff_exists.mp hroom
  obtain ⟨hblock, hwrites⟩ := BlockWriter.put_eq_some_iff.mp hw
  refine ⟨w, hblock, hwrites, ?_⟩
  have hitems := saveItems_eq hs (o.videos.order s.db.entries) w fun e he => by simpa using he
  simp only [saveBlocks, hmerge, hw, hitems, Option.bind_eq_bind, Option.bind_some]
  rw [← walk]
  cases w.putPieces ((walk o s).flatMap videoPieces) with
  | none => rfl
  | some w' =>
      have hlast : w'.checkFlush (BS + 1) = w'.flush := by
        rw [BlockWriter.checkFlush, if_pos (by omega)]
      rw [Option.map_some, Option.bind_some, Option.map_some, hlast]

theorem guarded_walk (o : HashOrder) (s : VideoDB) :
    BlockWriter.Guarded BS ((walk o s).flatMap videoPieces) := by
  intro p hp
  obtain ⟨v, -, hv⟩ := List.mem_flatMap.mp hp
  exact guarded_videoPieces v p hv

/-- Every store of `Save` stays inside the block exactly if every stored
name has at most 8183 bytes. -/
theorem saveBlocks_isSome_iff (hs : Inv s) (o : HashOrder) :
    (saveBlocks o s).isSome ↔ ∀ n ∈ s.catalogue.names, n.length ≤ 8183 := by
  obtain ⟨w, -, -, heq⟩ := saveBlocks_eq hs o
  rw [heq, Option.isSome_map, BlockWriter.putPieces_isSome_iff _ _ (guarded_walk o s)]
  simp only [List.forall_mem_flatMap, videoPieces_fit_iff]
  rw [Catalogue.names, ← coe_walk o s]
  simp

/-- What `Save` writes, in how many blocks, and that it leaves the store as
it was. -/
theorem saveBlocks_spec (hs : Inv s) {o : HashOrder} {r : List Bytes × VideoDB}
    (h : saveBlocks o s = some r) :
    r.1.flatten = encode (walk o s) ∧ r.1.length = blockCount (walk o s) ∧ r.2 = s := by
  obtain ⟨w, hblock, hwrites, heq⟩ := saveBlocks_eq hs o
  rw [heq, Option.map_eq_some_iff] at h
  obtain ⟨w', hw', rfl⟩ := h
  obtain ⟨hout, hcount⟩ := BlockWriter.putPieces_spec _ (guarded_walk o s) hw'
  refine ⟨?_, ?_, rfl⟩
  · have hflush : w'.flush.writes.flatten = w'.output := by
      simp [BlockWriter.flush, BlockWriter.output]
    rw [hflush, hout, BlockWriter.output, hblock, hwrites, encode, List.flatMap_assoc]
    simp only [List.flatten_nil, List.nil_append, flatMap_videoPieces]
  · rw [hwrites, hblock, length_fileHeader, List.length_nil, Nat.zero_add] at hcount
    simp only [BlockWriter.flush, List.length_append, List.length_singleton, hcount, blockCount]

end VideoDB

end VideoMatch.Server
