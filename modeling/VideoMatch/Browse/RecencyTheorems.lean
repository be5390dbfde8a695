/-
VideoMatch.Browse.RecencyTheorems — what the lookups answer.

A load puts its video in front and keeps the longest prefix that fits
(`load_spec`), so the video is there afterwards exactly if it fits the
cache by itself (`loaded_served_iff`).

Over a disk that always decodes a video to the same frames, and on which
every video fits, the cache is a list of keys kept in order of use
(`recency`): a hit of `Lookup` touches its key, a miss puts the key in
front and cuts the list. The answers do not depend on that list at all
(`lookups_refine_recency`).
-/
import VideoMatch.Browse.CacheTheorems

namespace VideoMatch.Browse

open VideoMatch.Cxx VideoMatch.Machine VideoMatch.Machine.Recency

namespace VideoManager

/-! ## The size of a video -/

/-- The sum of the `fsize` of the files that are read. -/
def videoSize (listing : Listing) : Nat :=
  ((listing.1.filter fun e => isJpg e.dName).map fun e =>
    (e.file.map fun content => (toInt content.length).toNat).getD 0).sum

theorem readFiles_size {listing : Listing} {frames : StdMap Int Bytes} {size : Nat}
    (h : readFiles listing = some (frames, size)) : size = videoSize listing := by
  have hfold : ∀ (es : List DirEntry) {st st' : StdMap Int Bytes × Nat},
      es.foldlM readFile st = some st' → st'.2 = st.2 + ((es.filter fun e => isJpg e.dName).map
        fun e => (e.file.map fun content => (toInt content.length).toNat).getD 0).sum := by
    intro es
    induction es with
    | nil => intro st st' h; cases h; rfl
    | cons e es ih =>
        intro st st' h
        rw [List.foldlM_cons, Option.bind_eq_bind, Option.bind_eq_some_iff] at h
        obtain ⟨t, ht, h⟩ := h
        rw [ih h]
        unfold readFile at ht
        split at ht
        · next hjpg =>
            cases hfile : e.file with
            | none =>
                rw [hfile] at ht
                cases ht
                simp [hjpg, hfile]
            | some content =>
                rw [hfile] at ht
                dsimp only at ht
                split at ht
                · cases ht
                · split at ht
                  · next hzero =>
                      cases ht
                      simp [hjpg, hfile, hzero]
                  · cases ht
                    simp [hjpg, hfile, Nat.add_assoc]
        · next hjpg =>
            cases ht
            simp [hjpg]
  have hsum := hfold listing.1 h
  rw [Nat.zero_add] at hsum
  exact hsum

/-! ## Loading -/

/-- A video that can be read goes to the front, and the longest prefix that
fits is kept. -/
theorem load_spec {vm : VideoManager} {l : List (Nat × Entry)} (h : Represents vm l) {key : Bytes}
    (hmiss : vm.data.find? key = none) (hknown : vm.rawPath.find? key ≠ none) {out : LoadOutcome}
    (hmkdir : out.mkdir = true) {listing : Listing} (hscan : out.scandir = some listing)
    {frames : StdMap Int Bytes} {size : Nat} (hread : readFiles listing = some (frames, size)) :
    ∃ vm' p, vm.load key out = some (0, vm') ∧
      Represents vm' (keep sizeOf vm.cacheSize ((p, ⟨key, frames, size⟩) :: l)) ∧
      vm'.cacheSize = vm.cacheSize ∧ vm'.rawPath = vm.rawPath := by
  obtain ⟨path, hpath⟩ := Option.ne_none_iff_exists'.mp hknown
  obtain ⟨vm₁, p, hlink, hrep, hsize, hraw⟩ := linkFront_spec h hmiss frames size
  have hfuel : ((p, (⟨key, frames, size⟩ : Entry)) :: l).length < vm₁.data.entries.length + 1 := by
    rw [hrep.length_data]
    exact Nat.lt_succ_self _
  obtain ⟨vm₂, hcheck, hrep₂, hsize₂, hraw₂⟩ := checkCacheOverflow_spec _ hrep hfuel
  refine ⟨vm₂, p, ?_, hsize ▸ hrep₂, hsize₂.trans hsize, hraw₂.trans hraw⟩
  have hins : vm.insertVideo key out = some vm₁ := by
    simp only [insertVideo, hscan, hread, hlink, Option.bind_eq_bind, Option.bind_some]
  simp only [load, hpath, hmkdir, if_true, hins, hcheck, Option.bind_eq_bind, Option.bind_some]

/-- A load that fails leaves the cache alone. -/
theorem load_failed {vm : VideoManager} {key : Bytes} {out : LoadOutcome}
    (h : vm.rawPath.find? key = none ∨ out.mkdir = false) :
    vm.load key out = some (-1, vm) := by
  unfold load
  rcases h with h | h
  · rw [h]
  · cases vm.rawPath.find? key <;> simp [h]

/-- What a load that returned 0 found. -/
theorem load_cases {vm vm' : VideoManager} {key : Bytes} {out : LoadOutcome}
    (h : vm.load key out = some (0, vm')) : vm.rawPath.find? key ≠ none ∧ out.mkdir = true ∧
      ∃ listing frames size, out.scandir = some listing ∧
        readFiles listing = some (frames, size) := by
  unfold load at h
  split at h
  · cases h
  · next path hpath =>
      refine ⟨by rw [hpath]; simp, ?_⟩
      split at h
      · next hmkdir =>
          simp only [insertVideo, Option.bind_eq_bind, Option.bind_eq_some_iff] at h
          obtain ⟨vm₁, ⟨listing, hlisting, ⟨frames, size⟩, hread, -⟩, -⟩ := h
          exact ⟨hmkdir, listing, frames, size, hlisting, hread⟩
      · cases h

/-! ## Answers -/

/-- What `Lookup` answers from the frames of a video. -/
def frameAnswer (frames : StdMap Int Bytes) (frameid : Int) (content : Bytes) : Int × Bytes :=
  match frames.find? frameid with
  | none => (-1, content)
  | some frame => (0, frame)

theorem lookupSize_of_found {vm vm₁ : VideoManager} {l : List (Nat × Entry)} {vname : Bytes}
    {out : LoadOutcome} {p : Nat} {c : Entry}
    (hfound : vm.findOrLoad vname out = some (some p, vm₁)) (h : Represents vm₁ l)
    (hp : (p, c) ∈ l) :
    vm.lookupSize vname out = some (toInt c.frames.entries.length, vm₁) := by
  obtain ⟨di, hdi, rfl⟩ := h.read hp
  simp only [lookupSize, hfound, hdi, Option.bind_eq_bind, Option.bind_some]
  rfl

theorem lookup_of_found {vm vm₁ : VideoManager} {xs ys : List (Nat × Entry)} {vname : Bytes}
    {out : LoadOutcome} {p : Nat} {c : Entry}
    (hfound : vm.findOrLoad vname out = some (some p, vm₁))
    (h : Represents vm₁ (xs ++ (p, c) :: ys)) (frameid : Int) (content : Bytes) :
    ∃ vm₂, vm.lookup vname frameid content out
        = some ((frameAnswer c.frames frameid content).1, (frameAnswer c.frames frameid content).2,
          vm₂) ∧
      Represents vm₂ ((p, c) :: (xs ++ ys)) ∧ vm₂.cacheSize = vm₁.cacheSize ∧
      vm₂.rawPath = vm₁.rawPath := by
  obtain ⟨vm₂, hmove, hrep, hsize, hraw⟩ := moveToFront_spec h
  obtain ⟨di, hdi, rfl⟩ := hrep.read (List.mem_cons_self ..)
  refine ⟨vm₂, ?_, hrep, hsize, hraw⟩
  simp only [lookup, hfound, hmove, hdi, Option.bind_eq_bind, Option.bind_some, frameAnswer,
    DataItem.entry]
  cases di.frames.find? frameid <;> rfl

/-- The item that a load has just put in front. -/
theorem lookup_of_found_head {vm vm₁ : VideoManager} {l : List (Nat × Entry)} {vname : Bytes}
    {out : LoadOutcome} {p : Nat} {c : Entry}
    (hfound : vm.findOrLoad vname out = some (some p, vm₁)) (h : Represents vm₁ ((p, c) :: l))
    (frameid : Int) (content : Bytes) :
    ∃ vm₂, vm.lookup vname frameid content out
        = some ((frameAnswer c.frames frameid content).1, (frameAnswer c.frames frameid content).2,
          vm₂) ∧
      Represents vm₂ ((p, c) :: l) ∧ vm₂.cacheSize = vm₁.cacheSize ∧ vm₂.rawPath = vm₁.rawPath := by
  have hsplit : Represents vm₁ ([] ++ (p, c) :: l) := h
  exact lookup_of_found hfound hsplit frameid content

/-- A miss that loads goes on with what `find` yields after the load. -/
theorem findOrLoad_of_load {vm vm' : VideoManager} {key : Bytes} {out : LoadOutcome}
    (hmiss : vm.data.find? key = none) (hload : vm.load key out = some (0, vm')) :
    vm.findOrLoad key out = (vm'.data.find? key).map fun di => (some di, vm') := by
  simp only [findOrLoad, hmiss, hload, Option.bind_eq_bind, Option.bind_some, Option.map_eq_bind]
  rfl

theorem findOrLoad_of_failed {vm : VideoManager} {key : Bytes} {out : LoadOutcome}
    (hmiss : vm.data.find? key = none) (hload : vm.load key out = some (-1, vm)) :
    vm.findOrLoad key out = some (none, vm) := by
  simp only [findOrLoad, hmiss, hload, Option.bind_eq_bind, Option.bind_some]
  rfl

theorem findOrLoad_of_hit {vm : VideoManager} {key : Bytes} {out : LoadOutcome} {p : Nat}
    (hhit : vm.data.find? key = some p) : vm.findOrLoad key out = some (some p, vm) := by
  simp only [findOrLoad, hhit]

/-- After `load` returned 0 the video is in `data`, and both lookups give an
answer, exactly if the video fits the cache. -/
theorem loaded_served_iff {cacheSize : Nat} {rawPath : StdMap Bytes Bytes} {vm : VideoManager}
    (hreach : (lookups cacheSize rawPath).Reachable vm) {key : Bytes} {out : LoadOutcome}
    {vm' : VideoManager} (hmiss : vm.data.find? key = none)
    (hload : vm.load key out = some (0, vm')) {listing : Listing}
    (hlisting : out.scandir = some listing) :
    ((∃ di, vm'.data.find? key = some di) ∧ (vm.lookupSize key out).isSome ∧
      ∀ frameid content, (vm.lookup key frameid content out).isSome) ↔
    videoSize listing ≤ cacheSize := by
  have hkept : Kept cacheSize vm := lookups_kept hreach
  obtain ⟨rfl, l, hrep, -⟩ := hkept
  obtain ⟨hknown, hmkdir, listing', frames, size, hscan, hread⟩ := load_cases hload
  rw [hlisting, Option.some.injEq] at hscan
  subst hscan
  obtain ⟨vm₁, p, hload', hrep', -⟩ := load_spec hrep hmiss hknown hmkdir hlisting hread
  rw [hload] at hload'
  cases hload'
  rw [← readFiles_size hread]
  constructor
  · intro h
    by_contra hbig
    obtain ⟨⟨di, hdi⟩, -⟩ := h
    rw [keep_eq_nil (show vm.cacheSize < sizeOf (p, ⟨key, frames, size⟩) by
      simpa [sizeOf] using hbig)] at hrep'
    have hnone : vm'.data.find? key = none := hrep'.find_eq_none.mpr (by simp)
    rw [hnone] at hdi
    cases hdi
  · intro hle
    rw [keep, if_pos (show sizeOf (p, ⟨key, frames, size⟩) ≤ vm.cacheSize from hle)] at hrep'
    have hfind : vm'.data.find? key = some p :=
      hrep'.find_eq_some.mpr ⟨⟨key, frames, size⟩, by simp, rfl⟩
    have hfound : vm.findOrLoad key out = some (some p, vm') := by
      rw [findOrLoad_of_load hmiss hload, hfind]
      rfl
    refine ⟨⟨p, hfind⟩, ?_, fun frameid content => ?_⟩
    · rw [lookupSize_of_found hfound hrep' (List.mem_cons_self ..)]
      rfl
    · obtain ⟨vm₂, hlookup, -⟩ := lookup_of_found_head hfound hrep' frameid content
      rw [hlookup]
      rfl

/-- A manager that knows the video `v`, whose only frame has two bytes. -/
def managerOfV (cacheSize : Nat) : VideoManager :=
  { cacheSize := cacheSize, rawPath := UnorderedMap.empty.insert (ascii "v") (ascii "v.pickle") }

def listingOfV : Listing := ⟨[⟨ascii "1.jpg", some [7, 7]⟩], by decide⟩

def loadsV : LoadOutcome := ⟨true, some listingOfV⟩

theorem loaded_served_two : ∃ vm', (managerOfV 2).load (ascii "v") loadsV = some (0, vm') ∧
    (∃ di, vm'.data.find? (ascii "v") = some di) ∧
    ((managerOfV 2).lookupSize (ascii "v") loadsV).isSome ∧
    ∀ frameid content, ((managerOfV 2).lookup (ascii "v") frameid content loadsV).isSome := by
  have hcode : ((managerOfV 2).load (ascii "v") loadsV).map Prod.fst = some 0 := by decide +kernel
  obtain ⟨⟨r, vm'⟩, hload, rfl⟩ := Option.map_eq_some_iff.mp hcode
  have hreach : (lookups 2 (managerOfV 2).rawPath).Reachable (managerOfV 2) := .init rfl
  have hfits : videoSize listingOfV ≤ 2 := by decide +kernel
  exact ⟨vm', hload, (loaded_served_iff hreach rfl hload rfl).mpr hfits⟩

/-- A video larger than the cache is evicted by its own load. -/
theorem large_video_not_served :
    (((managerOfV 1).load (ascii "v") loadsV).map fun r =>
      (r.1, r.2.data.find? (ascii "v"))) = some (0, none) ∧
    ((managerOfV 1).lookupSize (ascii "v") loadsV).isNone ∧
    ((managerOfV 1).lookup (ascii "v") 1 [] loadsV).isNone := by
  decide +kernel

/-! ## A disk that does not change -/

/-- The frames and the size that a load of `key` yields, if it returns 0. -/
def directLoad (rawPath : StdMap Bytes Bytes) (disk : Bytes → LoadOutcome) (key : Bytes) :
    Option (StdMap Int Bytes × Nat) :=
  if rawPath.find? key ≠ none ∧ (disk key).mkdir then (disk key).scandir.bind readFiles else none

/-- Every video can be read, and fits a cache of `cacheSize` by itself. -/
def DiskFits (cacheSize : Nat) (rawPath : StdMap Bytes Bytes) (disk : Bytes → LoadOutcome) : Prop :=
  ∀ key, rawPath.find? key ≠ none → (disk key).mkdir = true →
    ∃ listing, (disk key).scandir = some listing ∧ (readFiles listing).isSome ∧
      videoSize listing ≤ cacheSize

/-- A call of `LookupSize` or of `Lookup`. -/
inductive Query where
  | size (vname : Bytes)
  | frame (vname : Bytes) (frameid : Int) (content : Bytes)

/-- The call on a cache over the disk: the return value with `content`, and
the cache. -/
def ask (disk : Bytes → LoadOutcome) (vm : VideoManager) :
    Query → Option ((Int × Bytes) × VideoManager)
  | .size vname => (vm.lookupSize vname (disk vname)).map fun r => ((r.1, []), r.2)
  | .frame vname frameid content =>
      (vm.lookup vname frameid content (disk vname)).map fun r => ((r.1, r.2.1), r.2.2)

/-- A sequence of calls. -/
def askAll (disk : Bytes → LoadOutcome) :
    VideoManager → List Query → Option (List (Int × Bytes) × VideoManager)
  | vm, [] => some ([], vm)
  | vm, q :: qs => do
      let (r, vm) ← ask disk vm q
      let (rs, vm) ← askAll disk vm qs
      some (r :: rs, vm)

/-! ## The reference -/

/-- The answer a direct load gives. -/
def directAnswer (direct : Bytes → Option (StdMap Int Bytes × Nat)) : Query → Int × Bytes
  | .size vname => (((direct vname).map fun v => toInt v.1.entries.length).getD (-1), [])
  | .frame vname frameid content =>
      ((direct vname).map fun v => frameAnswer v.1 frameid content).getD (-1, content)

def weightOf (direct : Bytes → Option (StdMap Int Bytes × Nat)) (key : Bytes) : Nat :=
  ((direct key).map Prod.snd).getD 0

/-- The reference list: a hit of `Lookup` moves its key to the front, a hit
of `LookupSize` leaves the order alone, and a miss that loads puts the key
in front and keeps the longest prefix that fits. -/
def recency (direct : Bytes → Option (StdMap Int Bytes × Nat)) (cacheSize : Nat)
    (keys : List Bytes) (q : Query) : List Bytes :=
  let miss := fun vname =>
    if direct vname = none then keys else keep (weightOf direct) cacheSize (vname :: keys)
  match q with
  | .size vname => if vname ∈ keys then keys else miss vname
  | .frame vname _ _ => if vname ∈ keys then touch vname keys else miss vname

/-- The cache holds `l`, each item as a direct load gives it. -/
structure Shows (direct : Bytes → Option (StdMap Int Bytes × Nat)) (cacheSize : Nat)
    (rawPath : StdMap Bytes Bytes) (vm : VideoManager) (l : List (Nat × Entry)) : Prop where
  represents : Represents vm l
  cacheSize : vm.cacheSize = cacheSize
  rawPath : vm.rawPath = rawPath
  direct : ∀ it ∈ l, direct it.2.name = some (it.2.frames, it.2.size)

/-- The keys of the items. -/
def keysOf (l : List (Nat × Entry)) : List Bytes := l.map fun it => it.2.name

section

variable {cacheSize : Nat} {rawPath : StdMap Bytes Bytes} {disk : Bytes → LoadOutcome}
  {vm : VideoManager} {l : List (Nat × Entry)}

theorem shows_new (cacheSize : Nat) (rawPath : StdMap Bytes Bytes) (disk : Bytes → LoadOutcome) :
    Shows (directLoad rawPath disk) cacheSize rawPath
      { cacheSize := cacheSize, rawPath := rawPath } [] :=
  ⟨represents_new cacheSize rawPath, rfl, rfl, by simp⟩

/-- The keys that are kept are those of the items that are kept. -/
theorem Shows.keysOf_keep {direct : Bytes → Option (StdMap Int Bytes × Nat)}
    (hdirect : ∀ it ∈ l, direct it.2.name = some (it.2.frames, it.2.size)) (bound : Nat) :
    keysOf (keep sizeOf bound l) = keep (weightOf direct) bound (keysOf l) := by
  refine (keep_map fun it hit => ?_).symm
  rw [weightOf, hdirect it hit]
  rfl

/-- A video that fits is loaded to the front, and the list is cut. -/
theorem Shows.load (hdisk : DiskFits cacheSize rawPath disk)
    (h : Shows (directLoad rawPath disk) cacheSize rawPath vm l) {vname : Bytes}
    (hmiss : vm.data.find? vname = none) :
    (directLoad rawPath disk vname = none ∧
      vm.findOrLoad vname (disk vname) = some (none, vm)) ∨
    ∃ p c ys vm', directLoad rawPath disk vname = some (c.frames, c.size) ∧
      vm.findOrLoad vname (disk vname) = some (some p, vm') ∧
      Shows (directLoad rawPath disk) cacheSize rawPath vm' ((p, c) :: ys) ∧
      keysOf ((p, c) :: ys)
        = keep (weightOf (directLoad rawPath disk)) cacheSize (vname :: keysOf l) := by
  obtain ⟨hrep, rfl, rfl, hdirect⟩ := h
  by_cases hloads : vm.rawPath.find? vname ≠ none ∧ (disk vname).mkdir
  · obtain ⟨hknown, hmkdir⟩ := hloads
    obtain ⟨listing, hscan, hreads, hfits⟩ := hdisk vname hknown hmkdir
    obtain ⟨⟨frames, size⟩, hread⟩ := Option.isSome_iff_exists.mp hreads
    obtain ⟨vm', p, hload, hrep', hsize, hraw⟩ := load_spec hrep hmiss hknown hmkdir hscan hread
    have hvideo : directLoad vm.rawPath disk vname = some (frames, size) := by
      rw [directLoad, if_pos ⟨hknown, hmkdir⟩, hscan, Option.bind_some, hread]
    have hdirect' : ∀ it ∈ (p, (⟨vname, frames, size⟩ : Entry)) :: l,
        directLoad vm.rawPath disk it.2.name = some (it.2.frames, it.2.size) := by
      intro it hit
      rcases List.mem_cons.mp hit with rfl | hit
      · exact hvideo
      · exact hdirect it hit
    have hkeys := Shows.keysOf_keep hdirect' vm.cacheSize
    have hsub : keep sizeOf vm.cacheSize ((p, (⟨vname, frames, size⟩ : Entry)) :: l)
        ⊆ (p, ⟨vname, frames, size⟩) :: l := (keep_isPrefix _ _).subset
    have hhead : sizeOf (p, (⟨vname, frames, size⟩ : Entry)) ≤ vm.cacheSize := by
      rw [← readFiles_size hread] at hfits
      exact hfits
    rw [keep, if_pos hhead] at hrep' hkeys hsub
    have hfind : vm'.data.find? vname = some p :=
      hrep'.find_eq_some.mpr ⟨⟨vname, frames, size⟩, by simp, rfl⟩
    refine .inr ⟨p, ⟨vname, frames, size⟩, _, vm', hvideo, ?_, ⟨hrep', hsize, hraw, ?_⟩, hkeys⟩
    · rw [findOrLoad_of_load hmiss hload, hfind]
      rfl
    · intro it hit
      exact hdirect' it (hsub hit)
  · have hfailed : vm.rawPath.find? vname = none ∨ (disk vname).mkdir = false := by
      rw [not_and_or, not_not, Bool.not_eq_true] at hloads
      exact hloads
    exact .inl ⟨by rw [directLoad, if_neg hloads],
      findOrLoad_of_failed hmiss (load_failed hfailed)⟩

/-- Moving the item of a key to the front touches the key. -/
theorem keysOf_front {xs ys : List (Nat × Entry)} {p : Nat} {c : Entry}
    (hnodup : (keysOf (xs ++ (p, c) :: ys)).Nodup) :
    keysOf ((p, c) :: (xs ++ ys)) = touch c.name (keysOf (xs ++ (p, c) :: ys)) := by
  have hnot : c.name ∉ keysOf xs := by
    intro hmem
    rw [keysOf, List.map_append, List.nodup_append'] at hnodup
    exact hnodup.2.2 hmem (by simp)
  have hsplit : keysOf (xs ++ (p, c) :: ys) = keysOf xs ++ c.name :: keysOf ys := by
    simp [keysOf]
  rw [hsplit, touch_append hnot]
  simp [keysOf]

/-- One call: the answer of a direct load, and the step of the reference. -/
theorem ask_spec (hdisk : DiskFits cacheSize rawPath disk)
    (h : Shows (directLoad rawPath disk) cacheSize rawPath vm l) (q : Query) :
    ∃ vm' l', ask disk vm q = some (directAnswer (directLoad rawPath disk) q, vm') ∧
      Shows (directLoad rawPath disk) cacheSize rawPath vm' l' ∧
      keysOf l' = recency (directLoad rawPath disk) cacheSize (keysOf l) q := by
  have hmiss : ∀ vname, vname ∉ keysOf l → vm.data.find? vname = none :=
    fun vname hnot => h.represents.find_eq_none.mpr hnot
  have hhit : ∀ vname, vname ∈ keysOf l → ∃ xs p c ys, l = xs ++ (p, c) :: ys ∧ c.name = vname ∧
      vm.findOrLoad vname (disk vname) = some (some p, vm) := by
    intro vname hmem
    obtain ⟨⟨p, c⟩, hit, hname⟩ := List.mem_map.mp hmem
    obtain ⟨xs, ys, rfl⟩ := List.append_of_mem hit
    have hfind := h.represents.find_eq_some.mpr ⟨c, hit, hname⟩
    exact ⟨xs, p, c, ys, rfl, hname, findOrLoad_of_hit hfind⟩
  cases q with
  | size vname =>
      by_cases hmem : vname ∈ keysOf l
      · obtain ⟨xs, p, c, ys, rfl, rfl, hfound⟩ := hhit vname hmem
        have hdirect := h.direct (p, c) (by simp)
        refine ⟨vm, _, ?_, h, by simp only [recency, if_pos hmem]⟩
        rw [ask, lookupSize_of_found (c := c) hfound h.represents (by simp), directAnswer, hdirect]
        rfl
      · rcases h.load hdisk (hmiss vname hmem) with ⟨hnone, hfound⟩ |
          ⟨p, c, ys, vm', hdirect, hfound, hshows, hkeys⟩
        · refine ⟨vm, l, ?_, h, by simp only [recency, if_neg hmem, if_pos hnone]⟩
          rw [directAnswer, hnone]
          simp only [ask, lookupSize, hfound, Option.bind_eq_bind, Option.bind_some]
          rfl
        · refine ⟨vm', _, ?_, hshows, ?_⟩
          · rw [ask, lookupSize_of_found (c := c) hfound hshows.represents (by simp),
              directAnswer, hdirect]
            rfl
          · rw [hkeys]
            simp only [recency, if_neg hmem, hdirect, reduceCtorEq, if_false]
  | frame vname frameid content =>
      by_cases hmem : vname ∈ keysOf l
      · obtain ⟨xs, p, c, ys, rfl, rfl, hfound⟩ := hhit vname hmem
        have hdirect := h.direct (p, c) (by simp)
        obtain ⟨vm₂, hlookup, hrep, hsize, hraw⟩ :=
          lookup_of_found hfound h.represents frameid content
        refine ⟨vm₂, _, ?_, ⟨hrep, hsize.trans h.cacheSize, hraw.trans h.rawPath, ?_⟩, ?_⟩
        · rw [ask, hlookup, directAnswer, hdirect]
          rfl
        · intro it hit
          exact h.direct it (List.perm_middle.symm.mem_iff.mp hit)
        · rw [keysOf_front h.represents.nodup_names]
          simp only [recency, if_pos hmem]
      · rcases h.load hdisk (hmiss vname hmem) with ⟨hnone, hfound⟩ |
          ⟨p, c, ys, vm', hdirect, hfound, hshows, hkeys⟩
        · refine ⟨vm, l, ?_, h, by simp only [recency, if_neg hmem, if_pos hnone]⟩
          rw [directAnswer, hnone]
          simp only [ask, lookup, hfound, Option.bind_eq_bind, Option.bind_some]
          rfl
        · obtain ⟨vm₂, hlookup, hrep, hsize, hraw⟩ :=
            lookup_of_found_head hfound hshows.represents frameid content
          refine ⟨vm₂, (p, c) :: ys, ?_, ⟨hrep, hsize.trans hshows.cacheSize,
            hraw.trans hshows.rawPath, hshows.direct⟩, ?_⟩
          · rw [ask, hlookup, directAnswer, hdirect]
            rfl
          · rw [hkeys]
            simp only [recency, if_neg hmem, hdirect, reduceCtorEq, if_false]

/-- Any number of calls. -/
theorem askAll_spec (hdisk : DiskFits cacheSize rawPath disk) : ∀ (qs : List Query)
    {vm : VideoManager} {l : List (Nat × Entry)},
    Shows (directLoad rawPath disk) cacheSize rawPath vm l →
    ∃ vm' l', askAll disk vm qs = some (qs.map (directAnswer (directLoad rawPath disk)), vm') ∧
      Shows (directLoad rawPath disk) cacheSize rawPath vm' l' ∧
      keysOf l' = qs.foldl (recency (directLoad rawPath disk) cacheSize) (keysOf l) := by
  intro qs
  induction qs with
  | nil => intro vm l h; exact ⟨vm, l, rfl, h, rfl⟩
  | cons q qs ih =>
      intro vm l h
      obtain ⟨vm₁, l₁, hask, h₁, hkeys₁⟩ := ask_spec hdisk h q
      obtain ⟨vm', l', hrest, h', hkeys'⟩ := ih h₁
      refine ⟨vm', l', ?_, h', by rw [hkeys', hkeys₁, List.foldl_cons]⟩
      simp only [askAll, hask, hrest, Option.bind_eq_bind, Option.bind_some, List.map_cons]

end

/-- Read from `head` on, the cached items have the names `keys`. -/
def ReadsKeys (vm : VideoManager) (keys : List Bytes) : Prop :=
  ∃ order, Walk vm.heap DataItem.next vm.head order ∧
    order.map (fun p => (vm.heap.read p).map DataItem.name) = keys.map some

theorem Represents.readsKeys {vm : VideoManager} {l : List (Nat × Entry)} (h : Represents vm l) :
    ReadsKeys vm (keysOf l) := by
  refine ⟨l.map Prod.fst, h.head ▸ h.linked.walk_next, ?_⟩
  rw [keysOf, List.map_map, List.map_map]
  refine List.map_congr_left fun it hit => ?_
  obtain ⟨di, hdi, hentry⟩ := h.read hit
  simp [hdi, ← hentry, DataItem.entry]

/-- The cache is the reference list, and cannot be seen from outside. Over a
disk that does not change and on which every video fits, each sequence of
calls comes back, the cached items are those of the reference list in its
order, and the answers are those of direct loads. -/
theorem lookups_refine_recency (cacheSize : Nat) (rawPath : StdMap Bytes Bytes)
    (disk : Bytes → LoadOutcome) (hdisk : DiskFits cacheSize rawPath disk) (qs : List Query) :
    ∃ vm, askAll disk { cacheSize := cacheSize, rawPath := rawPath } qs
        = some (qs.map (directAnswer (directLoad rawPath disk)), vm) ∧
      ReadsKeys vm (qs.foldl (recency (directLoad rawPath disk) cacheSize) []) := by
  obtain ⟨vm, l, hask, hshows, hkeys⟩ := askAll_spec hdisk qs
    (shows_new cacheSize rawPath disk)
  refine ⟨vm, hask, ?_⟩
  have hread := hshows.represents.readsKeys
  rw [hkeys] at hread
  exact hread

/-- Three videos like `v`. -/
def threeVideos : StdMap Bytes Bytes :=
  ((UnorderedMap.empty.insert (ascii "u") (ascii "u.pickle")).insert
    (ascii "v") (ascii "v.pickle")).insert (ascii "w") (ascii "w.pickle")

/-- Each of the three is asked for, and `v` once more. -/
def asksThree : List Query :=
  [.frame (ascii "v") 1 [], .frame (ascii "w") 1 [], .frame (ascii "v") 1 [], .size (ascii "u")]

/-- Two of the three fit the cache. The second call for `v` moves it to the
front, so `u` evicts `w`. -/
theorem lookups_refine_recency_three : ∃ vm,
    askAll (fun _ => loadsV) { cacheSize := 4, rawPath := threeVideos } asksThree
      = some ([(0, [7, 7]), (0, [7, 7]), (0, [7, 7]), (1, [])], vm) ∧
    ReadsKeys vm [ascii "u", ascii "v"] := by
  have hfits : videoSize listingOfV ≤ 4 := by decide +kernel
  have hread : (readFiles listingOfV).isSome := by decide +kernel
  obtain ⟨vm, hask, hkeys⟩ := lookups_refine_recency 4 threeVideos (fun _ => loadsV)
    (fun _ _ _ => ⟨listingOfV, rfl, hread, hfits⟩) asksThree
  have hanswers : asksThree.map (directAnswer (directLoad threeVideos fun _ => loadsV))
      = [(0, [7, 7]), (0, [7, 7]), (0, [7, 7]), (1, [])] := by decide +kernel
  have hlist : asksThree.foldl (recency (directLoad threeVideos fun _ => loadsV) 4) []
      = [ascii "u", ascii "v"] := by decide +kernel
  exact ⟨vm, hanswers ▸ hask, hlist ▸ hkeys⟩

end VideoManager

end VideoMatch.Browse
