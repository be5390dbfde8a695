/-
VideoMatch.Server.Reachable — the states of a running server, and its
queries there.

A server starts with one `Load` into a fresh `VideoDB` and then adds
videos. `Reachable` collects the states of all such runs: the file may be
absent or hold any bytes `Load` comes back from, and every call may walk
its hash containers in an order of its own. `AddReached` is the part of it
that starts without a file.

Every reachable state satisfies the invariant of the store
(`Reachable.inv`), so the index agrees with the stored videos, a query
agrees with a plain scan, and a video is found by its own frames.
-/
import VideoMatch.Machine.Transition
import VideoMatch.Server.LoadTheorems
import VideoMatch.Server.QueryTheorems

namespace VideoMatch.Server

open VideoMatch.Cxx VideoMatch.Machine

namespace VideoDB

/-- One `Add`, with the order of its walk. -/
structure AddCall where
  order : HashOrder
  item : DataItem

/-- The state after an `Add`. -/
def addStep (s : VideoDB) (c : AddCall) : Option VideoDB := (add c.order s c.item).map Prod.snd

/-- `s` is what some `Load` leaves behind. -/
def Loaded (s : VideoDB) : Prop := ∃ o file r, load o file fresh = some (r, s)

/-- A server that loads once and then adds. -/
def server : System VideoDB AddCall := ⟨Loaded, addStep⟩

/-- The states of all runs of the server. -/
def Reachable (s : VideoDB) : Prop := server.Reachable s

/-- A server without a database file. -/
def builder : System VideoDB AddCall := ⟨fun s => s = fresh, addStep⟩

/-- The states built by `Add` alone. -/
def AddReached (s : VideoDB) : Prop := builder.Reachable s

theorem Loaded.inv {s : VideoDB} (h : Loaded s) : Inv s := by
  obtain ⟨o, file, r, h⟩ := h
  cases file with
  | none => cases h; exact inv_fresh
  | some file => exact (loadFile_sound h).2.1

theorem loaded_fresh : Loaded fresh := ⟨default, none, 0, rfl⟩

theorem Inv.addStep {s s' : VideoDB} {c : AddCall} (hs : Inv s) (h : addStep s c = some s') :
    Inv s' := by
  obtain ⟨s₁, hadd, hinv, -⟩ := add_catalogue hs c.order c.item
  rw [VideoDB.addStep, hadd] at h
  cases h
  exact hinv

theorem Reachable.inv {s : VideoDB} (h : Reachable s) : Inv s :=
  System.Reachable.invariant (fun s (hs : Loaded s) => hs.inv) (fun _ _ _ hs h => hs.addStep h) h

theorem reachable_fresh : Reachable fresh := System.RunsUnder.init loaded_fresh

theorem AddReached.reachable {s : VideoDB} (h : AddReached s) : Reachable s := by
  have hrun : builder.Reachable s := h
  refine hrun.invariant (P := Reachable) ?_ ?_
  · rintro s rfl; exact reachable_fresh
  · intro s c s' hs hstep
    exact System.RunsUnder.step (e := c) hs trivial hstep

theorem AddReached.add {s s' : VideoDB} {o : HashOrder} {item : DataItem} {r : Int}
    (hs : AddReached s) (h : VideoDB.add o s item = some (r, s')) : AddReached s' := by
  refine System.RunsUnder.step (e := ⟨o, item⟩) hs trivial ?_
  show (VideoDB.add o s item).map Prod.snd = some s'
  rw [h]
  rfl

theorem addReached_fresh : AddReached fresh := System.RunsUnder.init rfl

/-- Adding one video to a fresh store. -/
theorem addReached_single (name : Bytes) (frames : List UInt64) :
    ∃ s, AddReached s ∧ s.content = [(name, frames)] := by
  rcases add_spec inv_fresh default (DataItem.ofFrames name frames) with ⟨hmem, -⟩ |
    ⟨-, s, hadd, -, hcontent, -⟩
  · simp [Catalogue.names, catalogue, content, fresh] at hmem
  · exact ⟨s, addReached_fresh.add hadd,
      by simpa [content, fresh, DataItem.ofFrames] using hcontent⟩

/-! ## The index -/

/-- The index is exact. Every pair of a key block is a non-blank hash of a
stored video, in the block of its 20 high bits; every non-blank hash of a
stored video is in its block once for that video; the cached counts and
`FramesCount` count distinct non-blank hashes; and an `Add` of a stored
name changes nothing. -/
theorem index_exact {s : VideoDB} (hs : Reachable s) :
    (∀ n p, (n, p) ∈ s.db.entries → ∃ di, (p, di) ∈ s.items ∧ di.name = n) ∧
    (∀ b kb, (b, kb) ∈ s.table.entries → ∀ h p, (h, p) ∈ kb →
      h ≠ 0 ∧ b.toNat = h.toNat / 2 ^ 44 ∧ ∃ di, (p, di) ∈ s.items ∧ h ∈ di.frames) ∧
    (∀ p di, (p, di) ∈ s.items → ∀ h ∈ di.frames, h ≠ 0 →
      ∃ kb, s.table.find? (keyShorten h) = some kb ∧ kb.count (h, p) = 1) ∧
    (∀ p di, (p, di) ∈ s.items →
      di.uniqFrmCnt = (unorderedSet (di.frames.filter (· ≠ 0))).length) ∧
    s.framesCount = toInt (s.items.map fun it => it.2.uniqFrmCnt).sum ∧
    ∀ o item, s.db.find? item.name ≠ none → add o s item = some (-1, s) := by
  have hinv := hs.inv
  refine ⟨fun n p hnp => ?_, fun b kb hb h p hp => ?_, fun p di hp h hh hne => ?_,
    hinv.counted, ?_, fun o item htaken => ?_⟩
  · obtain ⟨di, hread, hname, -⟩ := hinv.stored n p hnp
    exact ⟨di, mem_items.mpr ⟨⟨n, hnp⟩, hread⟩, hname⟩
  · have hloc := hinv.index.located b kb hb (h, p) hp
    have hmem : (h, p) ∈ s.indexEntries :=
      hinv.index.exact.mem_iff.mp (List.mem_flatMap.mpr ⟨(b, kb), hb, hp⟩)
    obtain ⟨di, hdi, hh⟩ := Inv.mem_indexEntries.mp hmem
    obtain ⟨hframe, hne⟩ := mem_distinctFrames.mp hh
    exact ⟨hne, by rw [hloc, toNat_keyShorten], di, hdi, hframe⟩
  · have hmem : (h, p) ∈ s.indexEntries :=
      Inv.mem_indexEntries.mpr ⟨di, hp, mem_distinctFrames.mpr ⟨hh, hne⟩⟩
    obtain ⟨kb, hfind, hkb⟩ := hinv.index.mem_iff.mp hmem
    refine ⟨kb, hfind, Nat.le_antisymm ?_ (List.count_pos_iff.mpr hkb)⟩
    have hle := hinv.index.count_le (s.table.find?_eq_some_iff.mp hfind) (h, p)
    exact hle.trans (List.nodup_iff_count_le_one.mp hinv.nodup_indexEntries (h, p))
  · rw [framesCount_spec hinv, hinv.frameTotal_eq]
  · rcases add_spec hinv o item with ⟨-, hadd⟩ | ⟨hnew, -⟩
    · exact hadd
    · exact absurd (hinv.mem_names.mpr htaken) hnew

theorem index_exact_single : ∃ s : VideoDB, s.content = [(ascii "v", [1, 0, 1, 2 ^ 44])] ∧
    ∀ p di, (p, di) ∈ s.items → ∀ h ∈ di.frames, h ≠ 0 →
      ∃ kb, s.table.find? (keyShorten h) = some kb ∧ kb.count (h, p) = 1 := by
  obtain ⟨s, hs, hcontent⟩ := addReached_single (ascii "v") [1, 0, 1, 2 ^ 44]
  obtain ⟨-, -, honce, -⟩ := index_exact hs.reachable
  exact ⟨s, hcontent, honce⟩

/-! ## Queries -/

/-- `Query` called with an empty result answers like a plain scan of the
store: one pair for each stored video that shares a non-blank hash with
the query, passes the length test and scores above the threshold. -/
theorem queryFrames_scans_store {s : VideoDB} (hs : Reachable s) (er : EqualRange UInt64)
    (o : HashOrder) (q : List UInt64) :
    ∃ out, queryFrames er o s q [] = some (toInt out.length, out, s) ∧
      (∀ name score, (name, score) ∈ out ↔ ∃ frames, (name, frames) ∈ s.content ∧
        sharesFrame frames q ∧
        ¬ lengthDiffers (distinctFrames frames).length (unorderedSet q).length ∧
        checkCandidate er frames q = some score ∧ score > threshold) ∧
      (out.map Prod.fst).Nodup ∧ out.Pairwise fun a b => b.2 ≤ a.2 := by
  obtain ⟨out, hquery, hout, hsorted⟩ := queryFrames_spec hs.inv er o q []
  rw [Multiset.coe_nil, Multiset.zero_add] at hout
  refine ⟨out, hquery, fun name score => ?_, ?_, hsorted⟩
  · rw [← Multiset.mem_coe, hout, Catalogue.mem_scan]
    rfl
  · rw [← Multiset.coe_nodup, ← Multiset.map_coe, hout]
    exact Catalogue.nodup_scan er q s.catalogue

theorem queryFrames_scans_single : ∃ s : VideoDB, s.content = [(ascii "v", [1, 0, 1, 2])] ∧
    ∃ out, queryFrames default default s [2, 2] [] = some (toInt out.length, out, s) ∧
      (out.map Prod.fst).Nodup := by
  obtain ⟨s, hs, hcontent⟩ := addReached_single (ascii "v") [1, 0, 1, 2]
  obtain ⟨out, hquery, -, hnodup, -⟩ := queryFrames_scans_store hs.reachable default default [2, 2]
  exact ⟨s, hcontent, out, hquery, hnodup⟩

/-- The length test lets a video pass when it is the query: the two sides
of the test differ by the blank hash at most. -/
theorem not_lengthDiffers_self (frames : List UInt64) :
    ¬ lengthDiffers (distinctFrames frames).length (unorderedSet frames).length := by
  have hle : (distinctFrames frames).length ≤ (unorderedSet frames).length :=
    ((nodup_distinctFrames frames).subperm fun h hh =>
      mem_unorderedSet.mpr (mem_distinctFrames.mp hh).1).length_le
  have hge : (unorderedSet frames).length ≤ (distinctFrames frames).length + 1 := by
    have hsub : (unorderedSet frames).Subperm (EMPTY_FRAME :: distinctFrames frames) := by
      refine (nodup_unorderedSet frames).subperm fun h hh => ?_
      by_cases hne : h = EMPTY_FRAME
      · simp [hne]
      · exact List.mem_cons_of_mem _ (mem_distinctFrames.mpr ⟨mem_unorderedSet.mp hh, hne⟩)
    simpa using hsub.length_le
  rintro ⟨hlong, hmore | hless⟩
  · have hle' : ((distinctFrames frames).length : ℚ) ≤ (unorderedSet frames).length := by
      exact_mod_cast hle
    have hnn : (0 : ℚ) ≤ (unorderedSet frames).length := Nat.cast_nonneg _
    linarith
  · have hge' : ((unorderedSet frames).length : ℚ) ≤ (distinctFrames frames).length + 1 := by
      exact_mod_cast hge
    have hlong' : (60 : ℚ) < (distinctFrames frames).length := by exact_mod_cast hlong
    linarith

/-- A stored video with a non-blank hash is found by its own frames with
score 1, and nothing scores higher. -/
theorem Inv.self_match {s : VideoDB} (hs : Inv s) (er : EqualRange UInt64) (o : HashOrder)
    {name : Bytes} {frames : List UInt64} (hv : (name, frames) ∈ s.content)
    (hne : ∃ h ∈ frames, h ≠ 0) :
    ∃ out, queryFrames er o s frames [] = some (toInt out.length, out, s) ∧
      (name, 1) ∈ out ∧ ∀ r ∈ out, r.2 ≤ 1 := by
  obtain ⟨out, hquery, hout, -⟩ := queryFrames_spec hs er o frames []
  rw [Multiset.coe_nil, Multiset.zero_add] at hout
  obtain ⟨h, hh, hne⟩ := hne
  refine ⟨out, hquery, ?_, fun r hr => ?_⟩
  · rw [← Multiset.mem_coe, hout, Catalogue.mem_scan]
    refine ⟨frames, hv, ⟨h, hh, hne, hh⟩, not_lengthDiffers_self frames, ?_, ?_⟩
    · exact checkCandidate_self er (List.length_pos_of_mem hh)
    · norm_num [threshold]
  · rw [← Multiset.mem_coe, hout, Catalogue.mem_scan] at hr
    obtain ⟨bf, -, -, -, hscore, -⟩ := hr
    obtain ⟨score, hscore', -, hle⟩ := checkCandidate_total er bf frames
    rw [hscore, Option.some.injEq] at hscore'
    exact hscore' ▸ hle

end VideoDB

end VideoMatch.Server
