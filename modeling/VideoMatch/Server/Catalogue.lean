/-
VideoMatch.Server.Catalogue — what the store is for.

A catalogue is a finite collection of videos, no name twice, each a name
with a frame list. Nothing here knows about addresses, the index, the
reference counts or the order of a container: the operations are the
ones a client can observe.

* `insert` keeps the first video of a name.
* `scan` is the plain answer to a query: go through all videos, keep
  those that share a hash with the query and are not too different in
  length, and report a score above the threshold.
* `frameTotal` counts distinct frames, video by video.

The store refines the catalogue: `VideoDB.catalogue` forgets everything
but names and frames, and the operations of the store commute with it
(`Server.StoreTheorems`, `Server.QueryTheorems`).
-/
import VideoMatch.Server.VideoDB

namespace VideoMatch.Server

open VideoMatch.Cxx

/-- A name and the frames stored under it. -/
abbrev Video := Bytes × List UInt64

/-- The distinct non-blank hashes of a video. -/
def distinctFrames (frames : List UInt64) : List UInt64 :=
  unorderedSet (frames.filter (· ≠ EMPTY_FRAME))

theorem mem_distinctFrames {frames : List UInt64} {h : UInt64} :
    h ∈ distinctFrames frames ↔ h ∈ frames ∧ h ≠ EMPTY_FRAME := by
  simp [distinctFrames]

theorem nodup_distinctFrames (frames : List UInt64) : (distinctFrames frames).Nodup :=
  nodup_unorderedSet _

/-- The video and the query have a non-blank hash in common. -/
def sharesFrame (frames q : List UInt64) : Prop :=
  ∃ k ∈ q, k ≠ EMPTY_FRAME ∧ k ∈ frames

instance (frames q : List UInt64) : Decidable (sharesFrame frames q) :=
  inferInstanceAs (Decidable (∃ k ∈ q, k ≠ EMPTY_FRAME ∧ k ∈ frames))

/-- The pair a video contributes to the answer to `q`, if any, with a
comparison `check` and a threshold `bound`. -/
def matchWith (check : List UInt64 → Option ℚ) (bound : ℚ) (q : List UInt64) (v : Video) :
    Option (Bytes × ℚ) :=
  if sharesFrame v.2 q ∧
      ¬ VideoDB.lengthDiffers (distinctFrames v.2).length (unorderedSet q).length then
    match check v.2 with
    | none => none
    | some score => if score > bound then some (v.1, score) else none
  else none

theorem matchWith_eq_some_iff (check : List UInt64 → Option ℚ) (bound : ℚ) {q : List UInt64}
    {v : Video} {r : Bytes × ℚ} : matchWith check bound q v = some r ↔
      r.1 = v.1 ∧ sharesFrame v.2 q ∧
        ¬ VideoDB.lengthDiffers (distinctFrames v.2).length (unorderedSet q).length ∧
        check v.2 = some r.2 ∧ r.2 > bound := by
  obtain ⟨name, score⟩ := r
  unfold matchWith
  split
  · next hcond =>
      cases hscore : check v.2 with
      | none => simp
      | some sc =>
          by_cases hgt : sc > bound
          · simp only [if_pos hgt, Option.some.injEq, Prod.mk.injEq]
            constructor
            · rintro ⟨rfl, rfl⟩; exact ⟨rfl, hcond.1, hcond.2, rfl, hgt⟩
            · rintro ⟨rfl, -, -, rfl, -⟩; exact ⟨rfl, rfl⟩
          · simp only [if_neg hgt, reduceCtorEq, Option.some.injEq, false_iff]
            intro h
            obtain ⟨-, -, -, rfl, h⟩ := h
            exact hgt h
  · next hcond =>
      simp only [reduceCtorEq, false_iff]
      intro h
      obtain ⟨-, hshare, hlen, -⟩ := h
      exact hcond ⟨hshare, hlen⟩

/-- The pair a video contributes to the answer, if any. -/
def matchScore (er : EqualRange UInt64) (q : List UInt64) (v : Video) : Option (Bytes × ℚ) :=
  if sharesFrame v.2 q ∧
      ¬ VideoDB.lengthDiffers (distinctFrames v.2).length (unorderedSet q).length then
    match checkCandidate er v.2 q with
    | none => none
    | some score => if score > VideoDB.threshold then some (v.1, score) else none
  else none

theorem matchScore_eq_some_iff {er : EqualRange UInt64} {q : List UInt64} {v : Video}
    {r : Bytes × ℚ} : matchScore er q v = some r ↔ r.1 = v.1 ∧ sharesFrame v.2 q ∧
      ¬ VideoDB.lengthDiffers (distinctFrames v.2).length (unorderedSet q).length ∧
      checkCandidate er v.2 q = some r.2 ∧ r.2 > VideoDB.threshold :=
  matchWith_eq_some_iff (fun frames => checkCandidate er frames q) VideoDB.threshold

/-- The names of an answer are names of the videos. -/
theorem names_filterMap_le {f : Video → Option (Bytes × ℚ)}
    (hf : ∀ v r, f v = some r → r.1 = v.1) (vs : Multiset Video) :
    (vs.filterMap f).map Prod.fst ≤ vs.map Prod.fst := by
  induction vs using Multiset.induction_on with
  | empty => simp
  | cons v vs ih =>
      cases hv : f v with
      | none =>
          rw [Multiset.filterMap_cons_none _ _ hv, Multiset.map_cons]
          exact ih.trans (Multiset.le_cons_self _ _)
      | some r =>
          rw [Multiset.filterMap_cons_some _ _ _ hv, Multiset.map_cons, Multiset.map_cons,
            hf v r hv]
          exact Multiset.cons_le_cons _ ih

/-- A finite collection of videos, no name twice. -/
@[ext] structure Catalogue where
  videos : Multiset Video
  nodup : (videos.map Prod.fst).Nodup

namespace Catalogue

/-- No videos. -/
def empty : Catalogue := ⟨0, by simp⟩

/-- The names in the catalogue. -/
def names (c : Catalogue) : Multiset Bytes := c.videos.map Prod.fst

/-- Add a video, unless its name is taken. -/
def insert (c : Catalogue) (v : Video) : Catalogue :=
  if h : v.1 ∈ c.names then c
  else ⟨v ::ₘ c.videos, by rw [Multiset.map_cons, Multiset.nodup_cons]; exact ⟨h, c.nodup⟩⟩

/-- The answer to a query by a plain scan. -/
def scan (er : EqualRange UInt64) (q : List UInt64) (c : Catalogue) : Multiset (Bytes × ℚ) :=
  c.videos.filterMap (matchScore er q)

/-- The number of distinct non-blank frames, counted for each video. -/
def frameTotal (c : Catalogue) : Nat :=
  (c.videos.map fun v => (distinctFrames v.2).length).sum

theorem insert_of_mem {c : Catalogue} {v : Video} (h : v.1 ∈ c.names) : c.insert v = c := by
  rw [insert, dif_pos h]

theorem videos_insert_of_not_mem {c : Catalogue} {v : Video} (h : v.1 ∉ c.names) :
    (c.insert v).videos = v ::ₘ c.videos := by
  rw [insert, dif_neg h]

/-- A name has one frame list. -/
theorem frames_unique (c : Catalogue) {n : Bytes} {f g : List UInt64} (hf : (n, f) ∈ c.videos)
    (hg : (n, g) ∈ c.videos) : f = g := by
  have hinj := Multiset.inj_on_of_nodup_map c.nodup (n, f) hf (n, g) hg rfl
  exact (Prod.mk.inj hinj).2

/-- No video is lost by an insertion. -/
theorem le_insert (c : Catalogue) (v : Video) : c.videos ≤ (c.insert v).videos := by
  by_cases h : v.1 ∈ c.names
  · rw [insert_of_mem h]
  · rw [videos_insert_of_not_mem h]
    exact Multiset.le_cons_self _ _

/-- The scan reports a pair exactly if a video gives it. -/
theorem mem_scan {c : Catalogue} {er : EqualRange UInt64} {q : List UInt64} {name : Bytes}
    {score : ℚ} :
    (name, score) ∈ c.scan er q ↔ ∃ frames, (name, frames) ∈ c.videos ∧ sharesFrame frames q ∧
      ¬ VideoDB.lengthDiffers (distinctFrames frames).length (unorderedSet q).length ∧
      checkCandidate er frames q = some score ∧ score > VideoDB.threshold := by
  rw [scan, Multiset.mem_filterMap]
  constructor
  · intro h
    obtain ⟨⟨n, frames⟩, hv, h⟩ := h
    obtain ⟨hname, h⟩ := matchScore_eq_some_iff.mp h
    cases hname
    exact ⟨frames, hv, h⟩
  · intro h
    obtain ⟨frames, hv, h⟩ := h
    exact ⟨(name, frames), hv, matchScore_eq_some_iff.mpr ⟨rfl, h⟩⟩

/-- The names of an answer are pairwise different. -/
theorem nodup_scan (er : EqualRange UInt64) (q : List UInt64) (c : Catalogue) :
    ((c.scan er q).map Prod.fst).Nodup := by
  have hle := names_filterMap_le (f := matchScore er q)
    fun _ _ h => (matchScore_eq_some_iff.mp h).1
  exact Multiset.nodup_of_le (hle c.videos) c.nodup

end Catalogue

namespace VideoDB

/-- The names of the content are among the keys of `db`. -/
theorem content_names_sublist (s : VideoDB) :
    (s.content.map Prod.fst).Sublist (s.db.entries.map Prod.fst) := by
  unfold content
  induction s.db.entries with
  | nil => simp
  | cons e es ih =>
      cases he : s.heap.read e.2 with
      | none => simpa [List.filterMap_cons, he] using ih.cons _
      | some di => simpa [List.filterMap_cons, he] using ih

/-- The catalogue a store stands for. -/
def catalogue (s : VideoDB) : Catalogue :=
  ⟨s.content, by
    rw [Multiset.map_coe, Multiset.coe_nodup]
    exact s.db.nodup.sublist s.content_names_sublist⟩

theorem names_catalogue (s : VideoDB) :
    s.catalogue.names = (s.content.map Prod.fst : List Bytes) := Multiset.map_coe _ _

theorem mem_catalogue {s : VideoDB} {v : Video} : v ∈ s.catalogue.videos ↔ v ∈ s.content :=
  Multiset.mem_coe

end VideoDB

end VideoMatch.Server
