/-
VideoMatch.Server.InfoTheorems — the counters that `Info` reports.

A history is a run of `Add` calls and restarts: a restart saves the store
and loads the file into a fresh one. `Count` and `FramesCount` are
functions of the catalogue. `FrameTableSize` is not. `Add` creates a key
block for a non-blank hash it indexes; `Load` creates a block for every
hash in the file, the blank one included, before it indexes anything
(`Reserves`). So the table has the keys of the stored non-blank hashes
and those of the hashes the last restart read, and its size depends on
the history exactly if one of the latter is not among the former
(`counters_agree_iff`).
-/
import VideoMatch.Server.Restart
import VideoMatch.Server.RequestTheorems

namespace VideoMatch.Server

open VideoMatch.Cxx VideoMatch.Machine

/-- The distinct values `h >> 44` of some hashes. -/
def highBits (hashes : Multiset UInt64) : Finset UInt64 :=
  (hashes.map fun h : UInt64 => h >>> 44).toFinset

/-- The non-blank hashes of all videos. -/
def Catalogue.hashes (c : Catalogue) : Multiset UInt64 :=
  c.videos.bind fun v => (v.2.filter (· ≠ EMPTY_FRAME) : List UInt64)

theorem mem_highBits {hashes : Multiset UInt64} {x : UInt64} :
    x ∈ highBits hashes ↔ ∃ h ∈ hashes, h >>> 44 = x := by
  simp [highBits]

theorem Catalogue.mem_hashes {c : Catalogue} {h : UInt64} :
    h ∈ c.hashes ↔ ∃ v ∈ c.videos, h ∈ distinctFrames v.2 := by
  simp [hashes, mem_distinctFrames]

namespace VideoDB

/-! ## Histories -/

/-- A store with the hashes that the last restart saved, which only the
statements below read. -/
structure History where
  vdb : VideoDB
  saved : List UInt64

/-- An `Add`, or a restart in a directory `fs` with the outcomes `out` of
the `write` calls. -/
inductive HistoryEvent where
  | add (c : AddCall)
  | restart (o o' : HashOrder) (fs : FileSystem DbFile) (out : Nat → WriteOutcome)

/-- One event. A restart is a `Save`, and a `Load` of the database file
into a fresh store. -/
def historyStep (st : History) : HistoryEvent → Option History
  | .add c => (addStep st.vdb c).map fun vdb => { st with vdb := vdb }
  | .restart o o' fs out => do
      let (_, fs, s) ← save o fs st.vdb true out
      let (_, vdb) ← load o' (fs.contents .db) fresh
      some ⟨vdb, s.content.flatMap Prod.snd⟩

def history : System History HistoryEvent := ⟨fun st => st = ⟨fresh, []⟩, historyStep⟩

/-- The restart writes the whole file, and no count in it leaves an `int`. -/
def Restartable (st : History) : HistoryEvent → Prop
  | .add _ => True
  | .restart o _ _ out =>
      (∀ i < blockCount (walk o st.vdb), out i = .full) ∧ st.vdb.catalogue.Fits

/-- The blocks of the table are those of the saved hashes and those of the
index. -/
structure Keyed (st : History) : Prop where
  inv : Inv st.vdb
  reserves : Reserves st.vdb.table {b | ∃ h ∈ st.saved, keyShorten h = b}

theorem Keyed.add {st st' : History} {c : AddCall} (h : Keyed st)
    (hstep : historyStep st (.add c) = some st') : Keyed st' := by
  obtain ⟨vdb, hadd, rfl⟩ := Option.map_eq_some_iff.mp hstep
  refine ⟨h.inv.addStep hadd, ?_⟩
  obtain ⟨⟨r, s⟩, hr, rfl⟩ := Option.map_eq_some_iff.mp hadd
  unfold VideoDB.add at hr
  split at hr
  · cases hr; exact h.reserves
  · simp only [Option.bind_eq_bind, Option.bind_eq_some_iff] at hr
    obtain ⟨t, ht, hr⟩ := hr
    cases hr
    exact reserves_addFramesToIndex ht h.reserves

/-- A restart that writes the whole file loads it. -/
theorem Keyed.restart {st : History} (h : Keyed st) {o : HashOrder} (o' : HashOrder)
    (fs : FileSystem DbFile) {out : Nat → WriteOutcome}
    (hfull : ∀ i < blockCount (walk o st.vdb), out i = .full) (hfits : st.vdb.catalogue.Fits)
    (hlen : ∀ n ∈ st.vdb.catalogue.names, n.length ≤ 8183) :
    ∃ st', historyStep st (.restart o o' fs out) = some st' ∧ Keyed st' ∧
      st'.saved = st.vdb.content.flatMap Prod.snd ∧
      ((∀ v ∈ st.vdb.catalogue.videos, 0 ∉ v.1) → st'.vdb.catalogue = st.vdb.catalogue) := by
  obtain ⟨-, fs', stale, -, -, hsave, hdb⟩ := save_full h.inv o fs out hlen hfull
  obtain ⟨s', hfile, hinv, hreserves, hcat⟩ :=
    loadFile_encode_fits o' (coe_walk o st.vdb) hfits hlen
  have hload : load o' (fs'.contents .db) fresh = some (0, s') := by
    rw [hdb]
    exact agrees_loadFile o' _ stale fresh _ hfile
  refine ⟨⟨s', st.vdb.content.flatMap Prod.snd⟩, ?_, ⟨hinv, ?_⟩, rfl, hcat⟩
  · simp only [historyStep, hsave, hload, Option.bind_eq_bind, Option.bind_some]
  · have hwalk : ∀ h, h ∈ (walk o st.vdb).flatMap Prod.snd ↔ h ∈ st.vdb.content.flatMap Prod.snd :=
      fun h => ((walk_perm o st.vdb).flatMap_right _).mem_iff
    simpa only [hwalk] using hreserves

theorem Keyed.step {st st' : History} {e : HistoryEvent} (h : Keyed st)
    (hok : Restartable st e) (hstep : historyStep st e = some st') : Keyed st' := by
  cases e with
  | add c => exact h.add hstep
  | restart o o' fs out =>
      obtain ⟨hfull, hfits⟩ := hok
      have hblocks : (saveBlocks o st.vdb).isSome := by
        simp only [historyStep, Option.bind_eq_bind, Option.bind_eq_some_iff] at hstep
        obtain ⟨r, hsave, -⟩ := hstep
        obtain ⟨-, b, hb⟩ := save_code hsave
        rw [hb]; rfl
      obtain ⟨st₁, hstep₁, hkeyed, -⟩ := h.restart o' fs hfull hfits
        ((saveBlocks_isSome_iff h.inv o).mp hblocks)
      rw [hstep] at hstep₁
      cases hstep₁
      exact hkeyed

theorem keyed_fresh : Keyed ⟨fresh, []⟩ := by
  refine ⟨inv_fresh, ?_⟩
  simpa [fresh] using reserves_empty

theorem keyed_of_runsUnder {st : History} (h : history.RunsUnder Restartable st) : Keyed st :=
  h.invariant (P := Keyed) (fun st (hst : st = ⟨fresh, []⟩) => hst ▸ keyed_fresh)
    fun _ _ _ hst hok hstep => hst.step hok hstep

/-! ## The size of the table -/

/-- The shortened key as a 64-bit value is `h >> 44`. -/
theorem toUInt64_keyShorten (h : UInt64) : (keyShorten h).toUInt64 = h >>> 44 := by
  apply UInt64.toNat_inj.mp
  rw [UInt32.toNat_toUInt64, toNat_keyShorten, UInt64.toNat_shiftRight, Nat.shiftRight_eq_div_pow]
  rfl

/-- The table has one block for each key of a stored or saved hash. -/
theorem image_keys {st : History} (h : Keyed st) :
    (st.vdb.table.entries.map Prod.fst).toFinset.image UInt32.toUInt64
      = highBits st.vdb.catalogue.hashes ∪ highBits st.saved := by
  have hstored : ∀ k, (∃ p, (k, p) ∈ st.vdb.indexEntries) ↔ k ∈ st.vdb.catalogue.hashes := by
    intro k
    simp only [Inv.mem_indexEntries, Catalogue.mem_hashes, mem_catalogue, h.inv.content_eq,
      List.mem_map]
    constructor
    · intro hk
      obtain ⟨p, di, hdi, hk⟩ := hk
      exact ⟨_, ⟨(p, di), hdi, rfl⟩, hk⟩
    · intro hk
      obtain ⟨v, ⟨⟨p, di⟩, hdi, rfl⟩, hk⟩ := hk
      exact ⟨p, di, hdi, hk⟩
  ext x
  simp only [Finset.mem_image, List.mem_toFinset, h.reserves.mem_keys h.inv.index,
    Set.mem_ofPred_eq, Finset.mem_union, mem_highBits, Multiset.mem_coe, ← hstored]
  constructor
  · intro hx
    obtain ⟨b, ⟨k, hk, rfl⟩ | ⟨⟨k, p⟩, hkp, rfl⟩, rfl⟩ := hx
    · exact .inr ⟨k, hk, (toUInt64_keyShorten k).symm⟩
    · exact .inl ⟨k, ⟨p, hkp⟩, (toUInt64_keyShorten k).symm⟩
  · intro hx
    rcases hx with ⟨k, ⟨p, hkp⟩, rfl⟩ | ⟨k, hk, rfl⟩
    · exact ⟨_, .inr ⟨(k, p), hkp, rfl⟩, toUInt64_keyShorten k⟩
    · exact ⟨_, .inl ⟨k, hk, rfl⟩, toUInt64_keyShorten k⟩

theorem highBits_subset_range (hashes : Multiset UInt64) :
    (highBits hashes).image UInt64.toNat ⊆ Finset.range (2 ^ 20) := by
  intro n hn
  obtain ⟨x, hx, rfl⟩ := Finset.mem_image.mp hn
  obtain ⟨h, -, rfl⟩ := mem_highBits.mp hx
  have hlt : h.toNat < 2 ^ 64 := h.toNat_lt
  rw [← toUInt64_keyShorten, UInt32.toNat_toUInt64, toNat_keyShorten, Finset.mem_range]
  omega

/-- There are few enough keys for an `int`. -/
theorem card_highBits_le (a b : Multiset UInt64) : (highBits a ∪ highBits b).card ≤ 2 ^ 20 := by
  have hinj : Function.Injective UInt64.toNat := fun _ _ h => UInt64.toNat_inj.mp h
  have hsub : (highBits a ∪ highBits b).image UInt64.toNat ⊆ Finset.range (2 ^ 20) := by
    rw [Finset.image_union]
    exact Finset.union_subset (highBits_subset_range a) (highBits_subset_range b)
  have hle := Finset.card_le_card hsub
  rwa [Finset.card_image_of_injective _ hinj, Finset.card_range] at hle

theorem frameTableSize_eq {st : History} (h : Keyed st) : st.vdb.frameTableSize
    = (highBits st.vdb.catalogue.hashes ∪ highBits st.saved).card := by
  have hinj : Function.Injective UInt32.toUInt64 := fun _ _ h => UInt32.toUInt64_inj.mp h
  have hlen : st.vdb.table.entries.length
      = (highBits st.vdb.catalogue.hashes ∪ highBits st.saved).card := by
    rw [← image_keys h, Finset.card_image_of_injective _ hinj,
      List.toFinset_card_of_nodup st.vdb.table.nodup, List.length_map]
  have hle := card_highBits_le st.vdb.catalogue.hashes st.saved
  rw [frameTableSize, hlen, toInt_of_lt (by omega)]

/-! ## Which histories agree -/

/-- Every hash the last restart read has its 20 high bits in common with a
stored non-blank hash. -/
def Covered (st : History) : Prop :=
  ∀ h ∈ st.saved, ∃ v ∈ st.vdb.content, ∃ k ∈ v.2, k ≠ 0 ∧ k >>> 44 = h >>> 44

theorem covered_iff (st : History) :
    Covered st ↔ highBits st.saved ⊆ highBits st.vdb.catalogue.hashes := by
  have hbits : ∀ x, x ∈ highBits st.vdb.catalogue.hashes ↔
      ∃ v ∈ st.vdb.content, ∃ k ∈ v.2, k ≠ 0 ∧ k >>> 44 = x := by
    intro x
    simp only [mem_highBits, Catalogue.mem_hashes, mem_catalogue, mem_distinctFrames]
    constructor
    · intro hx
      obtain ⟨k, ⟨v, hv, hk, hne⟩, rfl⟩ := hx
      exact ⟨v, hv, k, hk, hne, rfl⟩
    · intro hx
      obtain ⟨v, hv, k, hk, hne, rfl⟩ := hx
      exact ⟨k, ⟨v, hv, hk, hne⟩, rfl⟩
  constructor
  · intro h x hx
    obtain ⟨k, hk, rfl⟩ := mem_highBits.mp hx
    exact (hbits _).mpr (h k hk)
  · intro h k hk
    exact (hbits _).mp (h (mem_highBits.mpr ⟨k, hk, rfl⟩))

/-- The table has the size the catalogue asks for exactly if the saved
hashes bring no further keys. -/
theorem frameTableSize_exact_iff {st : History} (h : Keyed st) :
    st.vdb.frameTableSize = (highBits st.vdb.catalogue.hashes).card ↔ Covered st := by
  rw [frameTableSize_eq h, covered_iff, Nat.cast_inj, Finset.union_comm, ← Finset.union_eq_right]
  constructor
  · intro hcard
    exact (Finset.eq_of_subset_of_card_le Finset.subset_union_right hcard.le).symm
  · intro heq
    rw [heq]

/-- Two histories with the same videos report the same counters, with the
number of keys that the stored non-blank hashes have, exactly if no hash
that either of them read in its last restart brings a key of its own. -/
theorem counters_agree_iff {a b : History} (ha : history.RunsUnder Restartable a)
    (hb : history.RunsUnder Restartable b) (hsame : a.vdb.catalogue = b.vdb.catalogue) :
    (a.vdb.count = b.vdb.count ∧ a.vdb.framesCount = b.vdb.framesCount ∧
      a.vdb.frameTableSize = b.vdb.frameTableSize ∧ (∀ J, info J a.vdb = info J b.vdb) ∧
      a.vdb.frameTableSize = (highBits a.vdb.catalogue.hashes).card ∧
      b.vdb.frameTableSize = (highBits b.vdb.catalogue.hashes).card) ↔
    Covered a ∧ Covered b := by
  have hka := keyed_of_runsUnder ha
  have hkb := keyed_of_runsUnder hb
  rw [frameTableSize_exact_iff hka, frameTableSize_exact_iff hkb]
  constructor
  · intro h
    obtain ⟨-, -, -, -, h⟩ := h
    exact h
  · intro h
    have hcount : a.vdb.count = b.vdb.count := by
      rw [count_spec hka.inv, count_spec hkb.inv, hsame]
    have hframes : a.vdb.framesCount = b.vdb.framesCount := by
      rw [framesCount_spec hka.inv, framesCount_spec hkb.inv, hsame]
    have htable : a.vdb.frameTableSize = b.vdb.frameTableSize := by
      rw [(frameTableSize_exact_iff hka).mpr h.1, (frameTableSize_exact_iff hkb).mpr h.2, hsame]
    refine ⟨hcount, hframes, htable, fun J => ?_, h⟩
    rw [info, info, hcount, hframes, htable]

/-- A video added to an empty store, and the store after a restart. -/
theorem add_then_restart (name : Bytes) (frames : List UInt64) (hname : 0 ∉ name)
    (hlen : name.length ≤ 8183) (hframes : frames.length < 2 ^ 31) :
    ∃ a b : History, history.RunsUnder Restartable a ∧ history.RunsUnder Restartable b ∧
      a.vdb.catalogue = b.vdb.catalogue ∧ a.vdb.content = [(name, frames)] ∧ a.saved = [] ∧
      b.saved = frames := by
  rcases add_spec inv_fresh default (DataItem.ofFrames name frames) with ⟨hmem, -⟩ |
    ⟨-, s, hadd, -, hcontent, -⟩
  · simp [Catalogue.names, catalogue, content, fresh] at hmem
  have hcontent : s.content = [(name, frames)] := hcontent
  have hvideos : s.catalogue.videos = {(name, frames)} := congrArg _ hcontent
  have hrun : history.RunsUnder Restartable ⟨s, []⟩ := by
    refine .step (.init rfl) (e := .add ⟨default, DataItem.ofFrames name frames⟩) trivial ?_
    simp only [history, historyStep, addStep, hadd, Option.map_some]
  have hfits : s.catalogue.Fits := (Catalogue.encodable_single hvideos hname hframes).fits
  have hnames := Catalogue.short_single hvideos hlen
  obtain ⟨out, hout⟩ : ∃ out : Nat → WriteOutcome, ∀ i, out i = .full :=
    ⟨fun _ => .full, fun _ => rfl⟩
  have hok : Restartable ⟨s, []⟩ (.restart default default oldFiles out) :=
    ⟨fun i _ => hout i, hfits⟩
  obtain ⟨b, hstep, -, hsaved, hcat⟩ :=
    (keyed_of_runsUnder hrun).restart default oldFiles hok.1 hfits hnames
  refine ⟨⟨s, []⟩, b, hrun, hrun.step hok hstep, ?_, hcontent, rfl, ?_⟩
  · exact (hcat (by simpa [hvideos] using hname)).symm
  · simpa [hcontent] using hsaved

theorem counters_agree_single : ∃ a b : History, a.vdb.content = [(ascii "v", [0, 1])] ∧
    b.saved = [0, 1] ∧ a.vdb.catalogue = b.vdb.catalogue ∧
    a.vdb.frameTableSize = b.vdb.frameTableSize := by
  obtain ⟨a, b, ha, hb, hsame, hcontent, hsa, hsb⟩ :=
    add_then_restart (ascii "v") [0, 1] (by decide) (by decide) (by decide)
  have hmem : ∀ st : History, st.vdb.catalogue = a.vdb.catalogue →
      (ascii "v", [0, 1]) ∈ st.vdb.content := by
    intro st hst
    rw [← mem_catalogue, hst, mem_catalogue, hcontent]
    simp
  have hca : Covered a := by simp [Covered, hsa]
  have hcb : Covered b := by
    intro h hh
    refine ⟨_, hmem b hsame.symm, 1, by simp, by decide, ?_⟩
    rw [hsb] at hh
    fin_cases hh <;> decide
  obtain ⟨-, -, htable, -⟩ := (counters_agree_iff ha hb hsame).mpr ⟨hca, hcb⟩
  exact ⟨a, b, hcontent, hsb, hsame, htable⟩

/-- A video of blank frames has no key block until a restart gives it one. -/
theorem blank_frame_counted_after_restart : ∃ a b : History, history.Reachable a ∧
    history.Reachable b ∧ a.vdb.catalogue = b.vdb.catalogue ∧
    a.vdb.content = [(ascii "v", [0])] ∧ a.vdb.frameTableSize = 0 ∧
    b.vdb.frameTableSize = 1 := by
  obtain ⟨a, b, ha, hb, hsame, hcontent, hsa, hsb⟩ :=
    add_then_restart (ascii "v") [0] (by decide) (by decide) (by decide)
  have hhashes : a.vdb.catalogue.hashes = 0 := by
    have hvideos : a.vdb.catalogue.videos = {(ascii "v", [0])} := congrArg _ hcontent
    rw [Catalogue.hashes, hvideos, Multiset.singleton_bind]
    rfl
  have hreach : ∀ {st}, history.RunsUnder Restartable st → history.Reachable st := by
    intro st h
    exact h.invariant (P := history.Reachable) (fun _ h => .init h)
      fun _ _ _ h _ hs => .step h trivial hs
  refine ⟨a, b, hreach ha, hreach hb, hsame, hcontent, ?_, ?_⟩
  · rw [frameTableSize_eq (keyed_of_runsUnder ha), hhashes, hsa]
    decide
  · rw [frameTableSize_eq (keyed_of_runsUnder hb), ← hsame, hhashes, hsb]
    decide

end VideoDB

end VideoMatch.Server
