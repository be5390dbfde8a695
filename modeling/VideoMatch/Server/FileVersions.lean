/-
VideoMatch.Server.FileVersions — the two versions of the database file,
and what `Load` makes of them.

A file may start with the signature or not, and behind its records it may
hold the key blocks of an index. `Load` has one walk for all of them: it
steps over the signature if it finds one, and goes through the key blocks
without putting anything into the index (`insertKeyblock` returns at
once).

`loadFileAt` is `Load` with the place where its pointer ends up and with
the look-ups it makes for the key blocks; `loadFile` is what is left of it
without these (`loadFile_eq`). `loadFileAt_iff` then says exactly what
`Load` makes of a file of either version. The store depends on the
records alone (`rebuiltStore`). What can fail is the comparison with the
signature, which looks at 13 bytes however long the file is, and two
sums in an `int`. What `Save` writes is read back as a special case
(`loadFile_encode`).
-/
import VideoMatch.Server.LoadTheorems

namespace VideoMatch.Server

open VideoMatch.Cxx

/-! ## Both versions of the file -/

/-- A key block as the file stores it: its shortened key, and for each
pair the hash and the name of the video. -/
abbrev StoredBlock := UInt32 × List (UInt64 × Bytes)

def encodePair (p : UInt64 × Bytes) : Bytes :=
  u64Bytes p.1 ++ intBytes (toInt p.2.length) ++ p.2 ++ [0]

def encodeBlock (kb : StoredBlock) : Bytes :=
  leBytes 4 kb.1.toNat ++ intBytes (toInt kb.2.length) ++ kb.2.flatMap encodePair

def signature (signed : Bool) : Bytes := if signed then FILE_SIG else []

/-- A database file of either version. -/
def encodeFile (signed : Bool) (vs : List Video) (kbs : List StoredBlock) : Bytes :=
  signature signed ++ (intBytes (toInt vs.length) ++ (intBytes (toInt kbs.length) ++
    (vs.flatMap encodeVideo ++ kbs.flatMap encodeBlock)))

/-- `Save` writes the signed version without key blocks. -/
theorem encodeFile_signed (vs : List Video) : encodeFile true vs [] = encode vs := by
  simp [encodeFile, signature, encode, fileHeader]

/-- The counts fit their `int` fields, and what lies behind a missing
signature does not look like one. -/
structure WellFormed (signed : Bool) (vs : List Video) (kbs : List StoredBlock) : Prop where
  videos : vs.length < 2 ^ 31
  blocks : kbs.length < 2 ^ 31
  records : ∀ v ∈ vs, v.1.length < 2 ^ 31 ∧ v.2.length < 2 ^ 31
  pairs : ∀ kb ∈ kbs, kb.2.length < 2 ^ 31 ∧ ∀ p ∈ kb.2, p.2.length < 2 ^ 31
  unsigned : signed = false → ¬ FILE_SIG <+: encodeFile false vs kbs

namespace VideoDB

/-! ## The walk over the index section -/

/-- `insert_keyblock`: the first statement is `return`. -/
def insertKeyblock (vdb : VideoDB) (_hash : UInt64) (_di : Nat) : VideoDB := vdb

/-- One pair of a stored key block, with the look-up of its video. -/
def readPair (file : Bytes) (st : Int × VideoDB) : Option (Int × VideoDB) := do
  let (s, vdb) := st
  let hash ← u64At file s
  let vnlen ← intAt file (s + 8)
  let vn ← cstrAt file (s + 8 + 4)
  let skip ← intSucc vnlen
  let s := s + 8 + 4 + skip
  match vdb.db.find? vn with
  | none => some (s, vdb)
  | some di => some (s, insertKeyblock vdb hash di)

/-- One stored key block. -/
def readBlock (file : Bytes) (st : Int × VideoDB) : Option (Int × VideoDB) := do
  let (s, vdb) := st
  let kbSize ← intAt file (s + 4)
  times (readPair file) kbSize.toNat (s + 4 + 4, vdb)

/-- `Load` from a mapped file: the return code, where the pointer ends up,
and the store. -/
def loadFileAt (o : HashOrder) (file : Bytes) (vdb : VideoDB) : Option (Int × Int × VideoDB) := do
  let sig ← bytesAt file 0 FILE_SIG.length
  let s : Int := if sig = FILE_SIG then FILE_SIG.length else 0
  let dbSize ← intAt file s
  let kbNum ← intAt file (s + 4)
  let st ← times (loadRecord file) dbSize.toNat ⟨s + 4 + 4, fun _ => 0, vdb⟩
  let vdb := { st.vdb with table := reserveBlocks st.hslotCnt st.vdb.table }
  let vdb ← (o.videos.order vdb.db.entries).foldlM (fun vdb i => addFramesToIndex o vdb i.2) vdb
  let st ← times (readBlock file) kbNum.toNat (st.s, vdb)
  some (0, st)

/-- The look-up decides nothing: either way the pair is dropped. -/
theorem readPair_eq (file : Bytes) (vdb : VideoDB) (s : Int) :
    (skipPair file s).map (·, vdb) = readPair file (s, vdb) := by
  simp only [skipPair, readPair, Option.bind_eq_bind, Option.map_bind, Function.comp_def]
  refine Option.bind_congr fun hash _ => Option.bind_congr fun vnlen _ =>
    Option.bind_congr fun vn _ => Option.bind_congr fun skip _ => ?_
  cases vdb.db.find? vn <;> rfl

theorem readBlock_eq (file : Bytes) (vdb : VideoDB) (s : Int) :
    (skipBlock file s).map (·, vdb) = readBlock file (s, vdb) := by
  simp only [skipBlock, readBlock, Option.bind_eq_bind, Option.map_bind, Function.comp_def]
  exact Option.bind_congr fun kbSize _ =>
    times_map_state (·, vdb) (readPair_eq file vdb) kbSize.toNat (s + 4 + 4)

/-- `loadFile` is `Load` without its pointer. -/
theorem loadFile_eq (o : HashOrder) (file : Bytes) (vdb : VideoDB) :
    loadFile o file vdb = (loadFileAt o file vdb).map fun r => (r.1, r.2.2) := by
  simp only [loadFile, loadFileAt, Option.bind_eq_bind, Option.map_bind, Function.comp_def]
  refine Option.bind_congr fun sig _ => Option.bind_congr fun dbSize _ =>
    Option.bind_congr fun kbNum _ => Option.bind_congr fun st _ =>
      Option.bind_congr fun vdb _ => ?_
  have hskip := times_map_state (·, vdb) (readBlock_eq file vdb) kbNum.toNat st.s
  rw [← hskip, Option.bind_map]
  rfl

/-! ## The key blocks of a file -/

theorem skipPair_iff {file rest : Bytes} {p : UInt64 × Bytes} {s t : Int}
    (h : Ahead file s (encodePair p ++ rest)) (hlen : p.2.length < 2 ^ 31) :
    skipPair file s = some t ↔ p.2.length + 1 < 2 ^ 31 ∧ t = s + (encodePair p).length := by
  have hpos : s + 8 + 4 + (p.2.length + 1) = s + (encodePair p).length := by
    simp only [encodePair, List.length_append, length_u64Bytes, length_intBytes,
      List.length_singleton]
    push_cast
    ring
  simp only [encodePair, List.append_assoc] at h
  have h₁ : Ahead file (s + 8) (intBytes (toInt p.2.length) ++ (p.2 ++ ([0] ++ rest))) := by
    simpa using h.advance
  have h₂ : Ahead file (s + 8 + 4) (p.2 ++ 0 :: rest) := by
    simpa using h₁.advance
  simp only [skipPair, h.u64At_eq, h₁.intAt_eq, h₂.cstrAt_eq, Option.bind_eq_bind,
    Option.bind_some, Option.bind_eq_some_iff]
  constructor
  · intro hskip
    obtain ⟨skip, hskip, ht⟩ := hskip
    obtain ⟨hshort, rfl⟩ := (intSucc_toInt_iff hlen).mp hskip
    rw [hpos, Option.some.injEq] at ht
    exact ⟨hshort, ht.symm⟩
  · intro hcond
    obtain ⟨hshort, rfl⟩ := hcond
    exact ⟨_, (intSucc_toInt_iff hlen).mpr ⟨hshort, rfl⟩, by rw [hpos]⟩

theorem skipBlock_iff {file rest : Bytes} {kb : StoredBlock} {s t : Int}
    (h : Ahead file s (encodeBlock kb ++ rest))
    (hlen : kb.2.length < 2 ^ 31 ∧ ∀ p ∈ kb.2, p.2.length < 2 ^ 31) :
    skipBlock file s = some t ↔
      (∀ p ∈ kb.2, p.2.length + 1 < 2 ^ 31) ∧ t = s + (encodeBlock kb).length := by
  have hpos : s + 4 + 4 + (kb.2.flatMap encodePair).length = s + (encodeBlock kb).length := by
    simp only [encodeBlock, List.length_append, length_leBytes, length_intBytes]
    push_cast
    ring
  simp only [encodeBlock, List.append_assoc] at h
  have h₁ : Ahead file (s + 4)
      (intBytes (toInt kb.2.length) ++ (kb.2.flatMap encodePair ++ rest)) := by
    simpa using h.advance
  have h₂ : Ahead file (s + 4 + 4) (kb.2.flatMap encodePair ++ rest) := by
    simpa using h₁.advance
  rw [skipBlock, h₁.intAt_eq, Option.bind_eq_bind, Option.bind_some, toNat_toInt_of_lt hlen.1,
    times_pieces_iff kb.2 (fun p hp rest s t h => skipPair_iff h (hlen.2 p hp)) h₂, hpos]

/-! ## The signature -/

/-- Only the unsigned file without records and key blocks is shorter than
the signature. -/
theorem signature_fits_iff (signed : Bool) (vs : List Video) (kbs : List StoredBlock) :
    FILE_SIG.length ≤ (encodeFile signed vs kbs).length ↔ signed = true ∨ vs ≠ [] ∨ kbs ≠ [] := by
  have hsig : FILE_SIG.length = 13 := rfl
  have hlen : (encodeFile signed vs kbs).length
      = (signature signed).length + 8 + ((vs.flatMap encodeVideo).length
        + (kbs.flatMap encodeBlock).length) := by
    simp only [encodeFile, List.length_append, length_intBytes]
    omega
  rw [hsig, hlen]
  cases signed with
  | true => simp [signature, hsig]; omega
  | false =>
      cases vs with
      | cons v vs =>
          simp only [List.flatMap_cons, List.length_append, encodeVideo, length_encodeHeader]
          simp
          omega
      | nil =>
          cases kbs with
          | nil => simp [signature]
          | cons kb kbs =>
              simp only [List.flatMap_cons, List.length_append, encodeBlock, length_leBytes,
                length_intBytes]
              simp
              omega

/-- What the comparison with the signature reads. -/
theorem readSignature_iff {signed : Bool} {vs : List Video} {kbs : List StoredBlock}
    {sig : Bytes} :
    bytesAt (encodeFile signed vs kbs) 0 FILE_SIG.length = some sig ↔
      (signed = true ∨ vs ≠ [] ∨ kbs ≠ []) ∧
        sig = (encodeFile signed vs kbs).take FILE_SIG.length := by
  have hin : 0 ≤ (0 : Int) ∧ (0 : Int) + FILE_SIG.length ≤ (encodeFile signed vs kbs).length ↔
      signed = true ∨ vs ≠ [] ∨ kbs ≠ [] := by
    rw [← signature_fits_iff signed vs kbs]
    omega
  rw [bytesAt, Option.ite_none_right_eq_some, hin, Option.some.injEq, @eq_comm _ sig]
  rfl

/-- `Load` tells the versions apart. -/
theorem signature_found_iff {signed : Bool} {vs : List Video} {kbs : List StoredBlock}
    (hwf : WellFormed signed vs kbs) :
    (encodeFile signed vs kbs).take FILE_SIG.length = FILE_SIG ↔ signed = true := by
  cases signed with
  | true => simp [encodeFile, signature]
  | false =>
      rw [Bool.false_eq_true, iff_false, eq_comm, ← List.prefix_iff_eq_take]
      exact hwf.unsigned rfl

/-! ## What `Load` makes of a file -/

/-- What has to hold of a well-formed file for `Load` to get through: the
comparison with the signature stays inside it, the length of a name plus
one fits an `int`, and so do the counters of the shortened keys. -/
structure Loadable (signed : Bool) (vs : List Video) (kbs : List StoredBlock) : Prop where
  covers : signed = true ∨ vs ≠ [] ∨ kbs ≠ []
  names : ∀ v ∈ vs, v.1.length + 1 < 2 ^ 31
  blockNames : ∀ kb ∈ kbs, ∀ p ∈ kb.2, p.2.length + 1 < 2 ^ 31
  slots : ∀ b, slotsOf (vs.flatMap Prod.snd) b < 2 ^ 31

/-- The store that the records alone lead to. -/
def rebuiltStore (o : HashOrder) (vs : List Video) : Option VideoDB :=
  let vdb := storeRecords fresh vs
  (o.videos.order vdb.db.entries).foldlM (fun vdb i => addFramesToIndex o vdb i.2)
    { vdb with table := reserveBlocks (slotsOf (vs.flatMap Prod.snd)) vdb.table }

/-- The index can always be rebuilt. The blocks made in advance are those
of all hashes in the records. -/
theorem rebuiltStore_spec (o : HashOrder) (vs : List Video) :
    ∃ s, rebuiltStore o vs = some s ∧ Inv s ∧
      Reserves s.table {b | ∃ h ∈ vs.flatMap Prod.snd, keyShorten h = b} ∧
      s.content = (storeRecords fresh vs).content := by
  have htable : (storeRecords fresh vs).table = UnorderedMap.empty := table_storeRecords vs fresh
  have hreserved : Indexes (reserveBlocks (slotsOf (vs.flatMap Prod.snd))
      (storeRecords fresh vs).table) [] :=
    indexes_reserveBlocks _ (by rw [htable]; exact indexes_empty)
  obtain ⟨s, hs, hinv, hcontent⟩ := indexAll_spec (linked_fresh.storeRecords vs) hreserved o
  refine ⟨s, hs, hinv, ?_, hcontent⟩
  have hblocks := reserves_reserveBlocks (slotsOf (vs.flatMap Prod.snd))
    (by rw [htable]; exact reserves_empty : Reserves (storeRecords fresh vs).table ∅)
  have hkeys : {b | slotsOf (vs.flatMap Prod.snd) b ≠ 0 ∧ b.toNat < 2 ^ HSIZE_BITS}
      = {b | ∃ h ∈ vs.flatMap Prod.snd, keyShorten h = b} := by
    ext b
    rw [Set.mem_ofPred_eq, Set.mem_ofPred_eq, mem_slots_iff]
  rw [hkeys] at hblocks
  apply reserves_indexAll _ hs
  dsimp only
  exact hblocks

/-- The outcome of `Load` on a file of either version. -/
theorem loadFileAt_iff {o : HashOrder} {signed : Bool} {vs : List Video} {kbs : List StoredBlock}
    {r : Int × Int × VideoDB} (hwf : WellFormed signed vs kbs) :
    loadFileAt o (encodeFile signed vs kbs) fresh = some r ↔
      Loadable signed vs kbs ∧
        ∃ s, rebuiltStore o vs = some s ∧
          r = (0, ((encodeFile signed vs kbs).length : Int), s) := by
  have h₀ : Ahead (encodeFile signed vs kbs) 0 (signature signed ++ (intBytes (toInt vs.length) ++
      (intBytes (toInt kbs.length) ++ (vs.flatMap encodeVideo ++
        (kbs.flatMap encodeBlock ++ []))))) := by
    rw [List.append_nil]
    exact ahead_start _
  have h₁ := h₀.advance
  rw [Int.zero_add] at h₁
  have h₂ := h₁.advance
  rw [length_intBytes, Nat.cast_ofNat] at h₂
  have h₃ := h₂.advance
  rw [length_intBytes, Nat.cast_ofNat] at h₃
  have h₄ := h₃.advance
  have hend := h₄.advance.drop_eq.2.2
  rw [List.length_nil, Nat.cast_zero, Int.add_zero] at hend
  have hpos : (if (encodeFile signed vs kbs).take FILE_SIG.length = FILE_SIG
      then (FILE_SIG.length : Int) else 0) = (signature signed).length := by
    rw [if_congr (signature_found_iff hwf) rfl rfl]
    cases signed <;> rfl
  have hblocks := fun t => @times_pieces_iff _ _ _ _ _ _ kbs _ t
    (fun kb hkb rest s t h => skipBlock_iff h (hwf.pairs kb hkb)) h₄
  rw [hend] at hblocks
  simp only [loadFileAt, Option.bind_eq_bind, Option.bind_eq_some_iff]
  constructor
  · intro hload
    obtain ⟨sig, hsig, dbSize, hsize, kbNum, hnum, st, hst, vdb, hvdb, t, ht, hr⟩ := hload
    obtain ⟨hcovers, rfl⟩ := readSignature_iff.mp hsig
    rw [hpos] at hsize hnum hst
    rw [h₁.intAt_eq, Option.some.injEq] at hsize
    rw [h₂.intAt_eq, Option.some.injEq] at hnum
    rw [← hsize, toNat_toInt_of_lt hwf.videos, loadRecords_fresh_iff h₃ hwf.records] at hst
    obtain ⟨⟨hnames, hslots⟩, rfl⟩ := hst
    rw [← hnum, toNat_toInt_of_lt hwf.blocks, ← times_map_state (·, vdb) (readBlock_eq _ vdb),
      Option.map_eq_some_iff] at ht
    obtain ⟨t, ht, rfl⟩ := ht
    obtain ⟨hblockNames, rfl⟩ := (hblocks t).mp ht
    exact ⟨⟨hcovers, hnames, hblockNames, hslots⟩, vdb, hvdb, (Option.some.inj hr).symm⟩
  · intro hcond
    obtain ⟨hload, s, hs, rfl⟩ := hcond
    have hwalk : times (readBlock (encodeFile signed vs kbs)) kbs.length
        ((signature signed).length + 4 + 4 + (vs.flatMap encodeVideo).length, s)
        = some (((encodeFile signed vs kbs).length : Int), s) := by
      rw [← times_map_state (·, s) (readBlock_eq _ s), (hblocks _).mpr ⟨hload.blockNames, rfl⟩]
      rfl
    have hrecords := (loadRecords_fresh_iff h₃ hwf.records).mpr ⟨⟨hload.names, hload.slots⟩, rfl⟩
    refine ⟨_, readSignature_iff.mpr ⟨hload.covers, rfl⟩, toInt vs.length, ?_, toInt kbs.length,
      ?_, ⟨(signature signed).length + 4 + 4 + (vs.flatMap encodeVideo).length,
        slotsOf (vs.flatMap Prod.snd), storeRecords fresh vs⟩, ?_, s, hs, _, ?_, rfl⟩
    · rw [hpos, h₁.intAt_eq]
    · rw [hpos, h₂.intAt_eq]
    · rw [hpos, toNat_toInt_of_lt hwf.videos]
      exact hrecords
    · rw [toNat_toInt_of_lt hwf.blocks, hwalk]

theorem loadFile_of_loadable {o : HashOrder} {signed : Bool} {vs : List Video}
    {kbs : List StoredBlock} {s : VideoDB} (hwf : WellFormed signed vs kbs)
    (hload : Loadable signed vs kbs) (hs : rebuiltStore o vs = some s) :
    loadFile o (encodeFile signed vs kbs) fresh = some (0, s) := by
  rw [loadFile_eq, (loadFileAt_iff hwf).mpr ⟨hload, s, hs, rfl⟩]
  rfl

/-! ## What `Save` writes -/

/-- The file of videos whose counts fit is read to its end; the catalogue
comes back if no name is cut. -/
theorem loadFile_encode_fits (o : HashOrder) {c : Catalogue} {vs : List Video}
    (hvs : (vs : Multiset Video) = c.videos) (hc : c.Fits)
    (hlen : ∀ n ∈ c.names, n.length ≤ 8183) :
    ∃ s, loadFile o (encode vs) fresh = some (0, s) ∧ Inv s ∧
      Reserves s.table {b | ∃ h ∈ vs.flatMap Prod.snd, keyShorten h = b} ∧
      ((∀ v ∈ c.videos, 0 ∉ v.1) → s.catalogue = c) := by
  have hmem : ∀ v ∈ vs, v ∈ c.videos := fun v hv => by rw [← hvs]; exact hv
  have hcard : vs.length < 2 ^ 31 := by
    have h := hc.card
    rwa [← hvs, Multiset.coe_card] at h
  have hnodup : (vs.map Prod.fst).Nodup := by
    have h := c.nodup
    rwa [← hvs, Multiset.map_coe, Multiset.coe_nodup] at h
  have hslots : ∀ b, slotsOf (vs.flatMap Prod.snd) b < 2 ^ 31 := by
    intro b
    have h := hc.slots b
    rwa [← hvs, Multiset.map_coe, Multiset.sum_coe, ← slotsOf_flatMap] at h
  have hshort : ∀ v ∈ vs, v.1.length + 1 < 2 ^ 31 := by
    intro v hv
    have h := hlen v.1 (Multiset.mem_map_of_mem _ (hmem v hv))
    omega
  have hwf : WellFormed true vs [] :=
    ⟨hcard, by norm_num, fun v hv =>
      ⟨(Nat.lt_succ_self _).trans (hshort v hv), hc.frames v (hmem v hv)⟩, by simp, by simp⟩
  obtain ⟨s, hs, hinv, hreserves, hcontent⟩ := rebuiltStore_spec o vs
  refine ⟨s, ?_, hinv, hreserves, fun hnames => Catalogue.ext ?_⟩
  · rw [← encodeFile_signed]
    exact loadFile_of_loadable hwf ⟨.inl rfl, hshort, by simp, hslots⟩ hs
  · show (s.content : Multiset Video) = c.videos
    rw [hcontent, content_storeRecords vs linked_fresh (fun v hv => hnames v (hmem v hv))
      (by simpa [fresh] using hnodup), ← hvs]
    rfl

/-- The file of encodable videos decodes to these videos. -/
theorem loadFile_encode (o : HashOrder) {c : Catalogue} {vs : List Video}
    (hvs : (vs : Multiset Video) = c.videos) (hc : c.Encodable)
    (hlen : ∀ n ∈ c.names, n.length ≤ 8183) :
    ∃ s, loadFile o (encode vs) fresh = some (0, s) ∧ Inv s ∧ s.catalogue = c := by
  obtain ⟨s, hload, hinv, -, hcat⟩ := loadFile_encode_fits o hvs hc.fits hlen
  exact ⟨s, hload, hinv, hcat hc.names⟩

/-! ## Both versions alike -/

/-- `Load` comes back from the file with its pointer at the end, and with
the store that the signed file with the same records and no key blocks
leads to. -/
def LoadsAlike (o : HashOrder) (signed : Bool) (vs : List Video) (kbs : List StoredBlock) : Prop :=
  ∃ s, loadFileAt o (encodeFile signed vs kbs) fresh
      = some (0, ((encodeFile signed vs kbs).length : Int), s) ∧
    loadFile o (encodeFile true vs []) fresh = some (0, s)

/-- Both versions, with whatever key blocks, load alike exactly when the
file covers the comparison with the signature and no `int` overflows. -/
theorem loads_alike_iff (o : HashOrder) (signed : Bool) (vs : List Video)
    (kbs : List StoredBlock) (hwf : WellFormed signed vs kbs) :
    LoadsAlike o signed vs kbs ↔ Loadable signed vs kbs := by
  constructor
  · intro halike
    obtain ⟨s, hs, -⟩ := halike
    exact ((loadFileAt_iff hwf).mp hs).1
  · intro hload
    obtain ⟨s, hs, -⟩ := rebuiltStore_spec o vs
    have hwf' : WellFormed true vs [] :=
      ⟨hwf.videos, by norm_num, hwf.records, by simp, by simp⟩
    have hload' : Loadable true vs [] := ⟨.inl rfl, hload.names, by simp, hload.slots⟩
    exact ⟨s, (loadFileAt_iff hwf).mpr ⟨hload, s, hs, rfl⟩, loadFile_of_loadable hwf' hload' hs⟩

/-- An unsigned file with one record, and a key block that names its video
and another one. -/
theorem loads_alike_example :
    LoadsAlike default false [(ascii "v", [1, 2])] [(0, [(1, ascii "v"), (2, ascii "w")])] := by
  refine (loads_alike_iff default false _ _ ⟨by decide, by decide, by decide, by decide,
    fun _ => by decide⟩).mpr ⟨.inr (.inl (by simp)), by decide, by decide, fun b => ?_⟩
  exact (List.countP_le_length).trans_lt (by decide)

/-- The unsigned file of an empty store has 8 bytes. The comparison with
the signature leaves it. -/
theorem unsigned_empty_file_overread :
    WellFormed false [] [] ∧ (encodeFile false [] []).length = 8 ∧
      ∀ o, ¬ LoadsAlike o false [] [] := by
  have hwf : WellFormed false [] [] :=
    ⟨by decide, by decide, by decide, by decide, fun _ => by decide⟩
  refine ⟨hwf, rfl, fun o halike => ?_⟩
  obtain ⟨s, hs, -⟩ := halike
  have hcovers := ((loadFileAt_iff hwf).mp hs).1.covers
  simp at hcovers

end VideoDB

end VideoMatch.Server
