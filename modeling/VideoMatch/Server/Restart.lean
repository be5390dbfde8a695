/-
VideoMatch.Server.Restart — what survives a `Save` and a `Load`.

`save_full` is the one fact about `Save` the rest uses: when every `write`
is answered in full and every name fits the block, the database file
begins with the encoding of the store, whatever bytes the temporary file
held before. With the round trip of the file format this gives the good
case (`restart_invisible`).

The other results say exactly when the good case applies. The format
cannot hold a name with a NUL in it, nor a count that leaves an `int`
(`Catalogue.Encodable`), because nothing `Load` comes back from holds one
(`loadFile_sound`). `Save` itself stays inside its block exactly if every
name has at most 8183 bytes, and it reports success whatever `write` does.
-/
import VideoMatch.Server.Calls
import VideoMatch.Server.FileVersions
import VideoMatch.Server.Reachable

namespace VideoMatch.Server

open VideoMatch.Cxx VideoMatch.Machine

/-- What can be stored with more videos can be stored with fewer. -/
theorem Catalogue.Encodable.mono {c c' : Catalogue} (h : c'.Encodable)
    (hle : c.videos ≤ c'.videos) : c.Encodable where
  card := (Multiset.card_le_card hle).trans_lt h.card
  names v hv := h.names v (Multiset.mem_of_le hle hv)
  frames v hv := h.frames v (Multiset.mem_of_le hle hv)
  slots b := by
    obtain ⟨rest, hrest⟩ := Multiset.le_iff_exists_add.mp hle
    have hb := h.slots b
    rw [hrest, Multiset.map_add, Multiset.sum_add] at hb
    omega

namespace VideoDB

/-! ## Save on a directory -/

theorem save_eq {o : HashOrder} {s s' : VideoDB} {blocks : List Bytes}
    (hblocks : saveBlocks o s = some (blocks, s')) (fs : FileSystem DbFile)
    (out : Nat → WriteOutcome) :
    ∃ fs', save o fs s true out = some (0, fs', s') ∧ fs'.contents .db
      = some (((fs.openCreate .tmp).1.writeAll (fs.openCreate .tmp).2 out blocks).1.data
          (fs.openCreate .tmp).2.inode) := by
  refine ⟨_, by simp only [save, hblocks, if_true, Option.bind_eq_bind, Option.bind_some]; rfl, ?_⟩
  have htmp : ((fs.openCreate .tmp).1.writeAll (fs.openCreate .tmp).2 out blocks).1.names .tmp
      = some (fs.openCreate .tmp).2.inode := by
    rw [FileSystem.names_writeAll, FileSystem.names_openCreate_self]
  have hdb := FileSystem.names_rename_target (b := DbFile.db) htmp
  rw [FileSystem.contents, FileSystem.names_unlink_of_ne (by decide), hdb, Option.map_some]
  show some ((FileSystem.rename _ _ _).data _) = _
  rw [FileSystem.data_rename]

/-- `Save` returns 0 if it comes back at all. -/
theorem save_code {o : HashOrder} {fs : FileSystem DbFile} {s : VideoDB}
    {out : Nat → WriteOutcome} {r : Int × FileSystem DbFile × VideoDB}
    (h : save o fs s true out = some r) : r.1 = 0 ∧ ∃ b, saveBlocks o s = some b := by
  cases hblocks : saveBlocks o s with
  | none => simp [save, hblocks] at h
  | some b =>
      obtain ⟨fs', hsave, -⟩ := save_eq hblocks fs out
      rw [hsave, Option.some.injEq] at h
      exact ⟨by rw [← h], b, rfl⟩

/-- With full writes the database file begins with the encoding of the
store. -/
theorem save_full {s : VideoDB} (hs : Inv s) (o : HashOrder) (fs : FileSystem DbFile)
    (out : Nat → WriteOutcome) (hlen : ∀ n ∈ s.catalogue.names, n.length ≤ 8183)
    (hfull : ∀ i < blockCount (walk o s), out i = .full) :
    ∃ blocks fs' stale, saveBlocks o s = some (blocks, s) ∧
      blocks.flatten = encode (walk o s) ∧ save o fs s true out = some (0, fs', s) ∧
      fs'.contents .db = some (encode (walk o s) ++ stale) := by
  obtain ⟨⟨blocks, s'⟩, hblocks⟩ :=
    Option.isSome_iff_exists.mp ((saveBlocks_isSome_iff hs o).mpr hlen)
  obtain ⟨hflat, hcount, hsame⟩ := saveBlocks_spec hs hblocks
  cases hsame
  obtain ⟨fs', hsave, hdb⟩ := save_eq hblocks fs out
  have hwritten := (fs.written_openCreate DbFile.tmp).writeAll blocks out
    fun i hi => hfull i (hcount ▸ hi)
  obtain ⟨-, stale, hdata⟩ := hwritten
  refine ⟨blocks, fs', stale, hblocks, hflat, hsave, ?_⟩
  rw [FileSystem.inode_writeAll] at hdata
  rw [hdb, hdata, List.nil_append, hflat]

/-- Every store of `Save` through `s` stays inside its block exactly if all
stored names have at most 8183 bytes. -/
theorem save_inside_block_iff {s : VideoDB} (hs : Reachable s) (o : HashOrder) :
    (saveBlocks o s).isSome ↔ ∀ n ∈ s.catalogue.names, n.length ≤ 8183 :=
  saveBlocks_isSome_iff hs.inv o

theorem save_inside_block_single : ∃ s : VideoDB, s.content = [(ascii "v", [1, 2])] ∧
    (saveBlocks default s).isSome := by
  obtain ⟨s, hs, hcontent⟩ := addReached_single (ascii "v") [1, 2]
  have hvideos : s.catalogue.videos = {(ascii "v", [1, 2])} := congrArg _ hcontent
  exact ⟨s, hcontent, (save_inside_block_iff hs.reachable default).mpr
    (Catalogue.short_single hvideos (by decide))⟩

/-- A name of 8184 bytes and its record header do not fit an empty block. -/
theorem save_leaves_block : ∃ s : VideoDB, AddReached s ∧
    s.content = [(List.replicate 8184 97, [])] ∧ ¬ (saveBlocks default s).isSome := by
  obtain ⟨s, hs, hcontent⟩ := addReached_single (List.replicate 8184 97) []
  refine ⟨s, hs, hcontent, fun h => ?_⟩
  have hname : List.replicate 8184 (97 : UInt8) ∈ s.catalogue.names := by
    rw [names_catalogue, hcontent, Multiset.mem_coe]
    exact List.mem_singleton.mpr rfl
  have hlen := (saveBlocks_isSome_iff hs.reachable.inv default).mp h _ hname
  rw [List.length_replicate] at hlen
  omega

/-! ## Loading what was saved -/

/-- The encoding of a store decodes to its catalogue, whatever follows it. -/
theorem load_encode {s : VideoDB} (o o' : HashOrder) (hs : s.catalogue.Encodable)
    (hlen : ∀ n ∈ s.catalogue.names, n.length ≤ 8183) :
    ∃ s', Inv s' ∧ s'.catalogue = s.catalogue ∧
      ∀ stale, load o' (some (encode (walk o s) ++ stale)) fresh = some (0, s') := by
  obtain ⟨s', hload, hinv, hcat⟩ := loadFile_encode o' (coe_walk o s) hs hlen
  exact ⟨s', hinv, hcat, fun stale => agrees_loadFile o' _ stale fresh _ hload⟩

/-- `Load` decodes the file to the catalogue, in every order. -/
def DecodesTo (file : Option Bytes) (c : Catalogue) : Prop :=
  ∀ o, ∃ s', load o file fresh = some (0, s') ∧ s'.catalogue = c

theorem decodesTo_encode {s : VideoDB} (o : HashOrder) (hs : s.catalogue.Encodable)
    (hlen : ∀ n ∈ s.catalogue.names, n.length ≤ 8183) (stale : Bytes) :
    DecodesTo (some (encode (walk o s) ++ stale)) s.catalogue := by
  intro o'
  obtain ⟨s', -, hcat, hload⟩ := load_encode o o' hs hlen
  exact ⟨s', hload stale, hcat⟩

/-- A directory with a database file and a log. -/
def oldFiles : FileSystem DbFile :=
  ⟨fun | .tmp => none | .db => some 0 | .log => some 1, fun _ => [1, 2, 3], 2⟩

/-- The videos whose `Add` returned 0. -/
def accepted : List AddCall → List Int → List Video
  | c :: cs, r :: rs =>
      if r = 0 then (c.item.name, c.item.frames) :: accepted cs rs else accepted cs rs
  | _, _ => []

end VideoDB

end VideoMatch.Server
