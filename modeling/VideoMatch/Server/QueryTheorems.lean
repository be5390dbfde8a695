/-
VideoMatch.Server.QueryTheorems — the indexed query is the plain scan.

`queryFrames_spec` is the one lemma about `Query` the rest of the
development uses. For a store that satisfies the invariant, whatever the
orders of the walks and the choices of the sort, the call succeeds, adds
to `result` exactly the answer of `Catalogue.scan`, sorts by descending
score, returns the size of `result` and leaves the store as it found it:
each candidate's reference is taken once and dropped once.

The candidates are described as a set of addresses first
(`getCandidates1_spec`). The set of an unordered walk is enough, because
the objects are distinct and the answer is compared as a multiset.
-/
import VideoMatch.Server.StoreTheorems
import VideoMatch.Server.ScoreTheorems

namespace VideoMatch.Server

open VideoMatch.Cxx

namespace VideoDB

variable {s : VideoDB}

/-! ## The candidates -/

/-- The stored object is a candidate for the query `q`. -/
def IsCandidate (q : List UInt64) (di : DataItem) : Prop :=
  sharesFrame di.frames q ∧ ¬ lengthDiffers di.uniqFrmCnt (unorderedSet q).length

instance (q : List UInt64) : DecidablePred (IsCandidate q) := fun di =>
  inferInstanceAs (Decidable (sharesFrame di.frames q ∧
    ¬ lengthDiffers di.uniqFrmCnt (unorderedSet q).length))

/-- The addresses of the candidates, in the order of the walk over `db`. -/
def candidates (s : VideoDB) (q : List UInt64) : List Nat :=
  (s.items.filter fun it => IsCandidate q it.2).map Prod.fst

theorem mem_candidates {q : List UInt64} {p : Nat} :
    p ∈ s.candidates q ↔ ∃ di, (p, di) ∈ s.items ∧ IsCandidate q di := by
  simp [candidates]

theorem Inv.nodup_candidates (hs : Inv s) (q : List UInt64) : (s.candidates q).Nodup :=
  hs.nodup_addresses.sublist (List.filter_sublist.map _)

/-- The first loop of `get_candidates1` finds the videos that share a
frame with the query. -/
theorem Inv.mem_flatMap_lookupFrame (hs : Inv s) {q ks : List UInt64} {p : Nat}
    (hks : ∀ k, k ∈ ks ↔ k ∈ q) :
    p ∈ ks.flatMap s.lookupFrame ↔ ∃ di, (p, di) ∈ s.items ∧ sharesFrame di.frames q := by
  simp only [List.mem_flatMap, hs.index.mem_lookupFrame, Inv.mem_indexEntries, hks]
  constructor
  · intro h
    obtain ⟨k, hk, hne, di, hp, hmem⟩ := h
    exact ⟨di, hp, k, hk, hne, (mem_distinctFrames.mp hmem).1⟩
  · intro h
    obtain ⟨di, hp, k, hk, hne, hmem⟩ := h
    exact ⟨k, hk, hne, di, hp, mem_distinctFrames.mpr ⟨hmem, hne⟩⟩

/-- The stored object at `p` passes the length test for `n` distinct hashes. -/
def lengthFits (s : VideoDB) (n : Nat) (p : Nat) : Bool :=
  match s.heap.read p with
  | none => false
  | some di => ¬ lengthDiffers di.uniqFrmCnt n

theorem lengthFits_iff {n p : Nat} {di : DataItem} (h : s.heap.read p = some di) :
    lengthFits s n p = true ↔ ¬ lengthDiffers di.uniqFrmCnt n := by
  simp [lengthFits, h]

/-- The second loop of `get_candidates1` takes a reference on each object
that passes the length test. -/
theorem takeRefs_eq (n : Nat) (found : List Nat)
    (hstored : ∀ p ∈ found, ∃ di, s.heap.read p = some di) :
    found.foldlM (fun (st : List Nat × VideoDB) i => do
        let item ← st.2.heap.read i
        if lengthDiffers item.uniqFrmCnt n then
          some st
        else do
          let heap ← incRef st.2.heap i
          some (st.1 ++ [i], { st.2 with heap := heap }))
      ([], s)
    = some (found.filter (lengthFits s n),
        { s with heap := withRefs s.heap (found.filter (lengthFits s n)) }) := by
  obtain ⟨st, hst, hP⟩ := foldlM_all
    (P := fun done (st : List Nat × VideoDB) => st = (done.filter (lengthFits s n),
      { s with heap := withRefs s.heap (done.filter (lengthFits s n)) }))
    (f := fun (st : List Nat × VideoDB) i => do
      let item ← st.2.heap.read i
      if lengthDiffers item.uniqFrmCnt n then
        some st
      else do
        let heap ← incRef st.2.heap i
        some (st.1 ++ [i], { st.2 with heap := heap }))
    found ([], s)
    (by
      intro done p rest st hsplit hst
      obtain ⟨di, hread⟩ := hstored p (by rw [hsplit]; simp)
      subst hst
      simp only [read_withRefs, hread, Option.map_some, Option.bind_eq_bind, Option.bind_some,
        List.filter_append]
      by_cases hdiff : lengthDiffers di.uniqFrmCnt n
      · have hfits : lengthFits s n p = false := by simp [lengthFits, hread, hdiff]
        rw [if_pos hdiff]
        exact ⟨_, rfl, by simp [hfits]⟩
      · have hfits : lengthFits s n p = true := (lengthFits_iff hread).mpr hdiff
        rw [if_neg hdiff, incRef_withRefs hread]
        exact ⟨_, rfl, by simp [hfits]⟩)
    (by simp)
  rw [hst, hP]

/-- `get_candidates1` returns the candidates, in some order and each once,
with a reference taken on each. -/
theorem getCandidates1_spec (hs : Inv s) (o : HashOrder) (q : List UInt64) :
    ∃ cands, getCandidates1 o s q = some (cands, { s with heap := withRefs s.heap cands }) ∧
      cands.Perm (s.candidates q) := by
  let ks := o.frames.order (unorderedSet q)
  let found := o.items.order (unorderedSet (ks.flatMap s.lookupFrame))
  have hks : ∀ k, k ∈ ks ↔ k ∈ q := fun k => by simp [ks]
  have hfound : ∀ p, p ∈ found ↔ ∃ di, (p, di) ∈ s.items ∧ sharesFrame di.frames q := by
    intro p
    rw [IterOrder.mem_order, mem_unorderedSet, hs.mem_flatMap_lookupFrame hks]
  have hstored : ∀ p ∈ found, ∃ di, s.heap.read p = some di := by
    intro p hp
    obtain ⟨di, hdi, -⟩ := (hfound p).mp hp
    exact ⟨di, (mem_items.mp hdi).2⟩
  refine ⟨_, takeRefs_eq _ found hstored, ?_⟩
  have hnodup : found.Nodup := o.items.nodup_order.mpr (nodup_unorderedSet _)
  refine (List.perm_ext_iff_of_nodup (hnodup.filter _) (hs.nodup_candidates q)).mpr fun p => ?_
  rw [List.mem_filter, hfound, mem_candidates]
  constructor
  · intro h
    obtain ⟨⟨di, hp, hshare⟩, hfits⟩ := h
    exact ⟨di, hp, hshare, (lengthFits_iff (mem_items.mp hp).2).mp hfits⟩
  · intro h
    obtain ⟨di, hp, hshare, hlen⟩ := h
    exact ⟨⟨di, hp, hshare⟩, (lengthFits_iff (mem_items.mp hp).2).mpr hlen⟩

/-! ## The answer -/

section Answers

/-! The second loop of `Query` is the same for exact scores and for rounded
ones. `check` is the comparison with the frames of a candidate, `bound` the
threshold. -/

variable (check : List UInt64 → Option ℚ) (bound : ℚ)

/-- One candidate: its score, and its reference dropped. -/
def checkOneWith (st : List (Bytes × ℚ) × VideoDB) (i : Nat) :
    Option (List (Bytes × ℚ) × VideoDB) := do
  let item ← st.2.heap.read i
  let score ← check item.frames
  let result := if score > bound then st.1 ++ [(item.name, score)] else st.1
  let heap ← decRef st.2.heap i
  some (result, { st.2 with heap := heap })

/-- The pair the object at `p` contributes once it is a candidate. -/
def scoreWith (s : VideoDB) (p : Nat) : Option (Bytes × ℚ) :=
  match s.heap.read p with
  | none => none
  | some di =>
      match check di.frames with
      | none => none
      | some score => if score > bound then some (di.name, score) else none

/-- One candidate: its pair is appended, its reference is dropped. -/
theorem checkOneWith_spec (htotal : ∀ frames, check frames ≠ none) (hs : Inv s) {p : Nat}
    {di : DataItem} (hp : (p, di) ∈ s.items) (result : List (Bytes × ℚ)) (refs : List Nat) :
    checkOneWith check bound (result, { s with heap := withRefs s.heap (p :: refs) }) p
      = some (result ++ (scoreWith check bound s p).toList,
          { s with heap := withRefs s.heap refs }) := by
  have hread := (mem_items.mp hp).2
  obtain ⟨score, hscore⟩ := Option.ne_none_iff_exists'.mp (htotal di.frames)
  simp only [checkOneWith, scoreWith, read_withRefs, hread, hscore, Option.map_some,
    Option.bind_eq_bind, Option.bind_some]
  rw [decRef_withRefs hread (hs.item_facts hp).2]
  by_cases hgt : score > bound <;> simp [hgt]

/-- The second loop of `Query`: what is left to do has its references
still. -/
theorem foldlM_checkOneWith (htotal : ∀ frames, check frames ≠ none) (hs : Inv s)
    (refs : List Nat) : ∀ (cands : List Nat) (result : List (Bytes × ℚ)),
      (∀ p ∈ cands, ∃ di, (p, di) ∈ s.items) →
      cands.foldlM (checkOneWith check bound)
          (result, { s with heap := withRefs s.heap (cands ++ refs) })
        = some (result ++ cands.filterMap (scoreWith check bound s),
            { s with heap := withRefs s.heap refs }) := by
  intro cands
  induction cands with
  | nil => intro result _; simp
  | cons p cands ih =>
      intro result hcands
      obtain ⟨di, hp⟩ := hcands p List.mem_cons_self
      have hrest := ih (result ++ (scoreWith check bound s p).toList)
        fun p' hp' => hcands p' (List.mem_cons_of_mem _ hp')
      rw [List.foldlM_cons, List.cons_append, checkOneWith_spec check bound htotal hs hp,
        Option.bind_eq_bind, Option.bind_some, hrest]
      cases hscore : scoreWith check bound s p <;> simp [hscore]

/-- The pairs of the candidates are those of the videos. -/
theorem Inv.filterMap_candidatesWith (hs : Inv s) {q : List UInt64} {cands : List Nat}
    (hc : cands.Perm (s.candidates q)) :
    (cands.filterMap (scoreWith check bound s)).Perm
      (s.content.filterMap (matchWith check bound q)) := by
  have hitem : ∀ it ∈ s.items,
      (if IsCandidate q it.2 then scoreWith check bound s it.1 else none)
        = matchWith check bound q (it.2.name, it.2.frames) := by
    intro it hit
    have hread := (mem_items.mp hit).2
    have hcnt := hs.counted _ _ hit
    simp only [scoreWith, matchWith, hread]
    refine if_congr ?_ rfl rfl
    rw [IsCandidate, hcnt]
  have hscan : (s.candidates q).filterMap (scoreWith check bound s)
      = s.content.filterMap (matchWith check bound q) := by
    rw [hs.content_eq, candidates, List.filterMap_map, List.filterMap_map, List.filterMap_filter]
    refine List.filterMap_congr fun it hit => ?_
    simpa using hitem it hit
  rw [← hscan]
  exact hc.filterMap _

/-- Both loops: what is appended are the pairs of the videos, and all
references are dropped. -/
theorem candidates_checked (htotal : ∀ frames, check frames ≠ none) (hs : Inv s) (o : HashOrder)
    (q : List UInt64) (result : List (Bytes × ℚ)) :
    ∃ cands s₁ found, getCandidates1 o s q = some (cands, s₁) ∧
      cands.foldlM (checkOneWith check bound) (result, s₁) = some (result ++ found, s) ∧
      found.Perm (s.content.filterMap (matchWith check bound q)) := by
  obtain ⟨cands, hcands, hperm⟩ := getCandidates1_spec hs o q
  have hitems : ∀ p ∈ cands, ∃ di, (p, di) ∈ s.items := by
    intro p hp
    obtain ⟨di, hdi, -⟩ := mem_candidates.mp (hperm.mem_iff.mp hp)
    exact ⟨di, hdi⟩
  have hst := foldlM_checkOneWith check bound htotal hs [] cands result hitems
  rw [List.append_nil, withRefs_nil] at hst
  exact ⟨cands, _, _, hcands, hst, hs.filterMap_candidatesWith check bound hperm⟩

end Answers

/-- The pair the object at `p` contributes once it is a candidate. -/
def scoreAt (er : EqualRange UInt64) (s : VideoDB) (q : List UInt64) (p : Nat) :
    Option (Bytes × ℚ) :=
  match s.heap.read p with
  | none => none
  | some di =>
      match checkCandidate er di.frames q with
      | none => none
      | some score => if score > threshold then some (di.name, score) else none

theorem checkCandidate_ne_none (er : EqualRange UInt64) (bf cf : List UInt64) :
    checkCandidate er bf cf ≠ none := by
  obtain ⟨score, hscore, -⟩ := checkCandidate_total er bf cf
  rw [hscore]
  exact Option.some_ne_none score

theorem foldlM_checkOne (er : EqualRange UInt64) (q : List UInt64) (hs : Inv s) (refs : List Nat)
    (cands : List Nat) (result : List (Bytes × ℚ)) (hcands : ∀ p ∈ cands, ∃ di, (p, di) ∈ s.items) :
    cands.foldlM (checkOne er q) (result, { s with heap := withRefs s.heap (cands ++ refs) })
      = some (result ++ cands.filterMap (scoreAt er s q),
          { s with heap := withRefs s.heap refs }) :=
  foldlM_checkOneWith (fun frames => checkCandidate er frames q) threshold
    (fun frames => checkCandidate_ne_none er frames q) hs refs cands result hcands

/-- The pairs of the candidates are the plain scan. -/
theorem Inv.filterMap_candidates (hs : Inv s) (er : EqualRange UInt64) (q : List UInt64)
    {cands : List Nat} (hc : cands.Perm (s.candidates q)) :
    (cands.filterMap (scoreAt er s q) : Multiset (Bytes × ℚ)) = s.catalogue.scan er q := by
  have hcat : s.catalogue.scan er q = (s.content.filterMap (matchScore er q) : List _) :=
    Multiset.filterMap_coe _ _
  rw [hcat, Multiset.coe_eq_coe]
  exact hs.filterMap_candidatesWith (fun frames => checkCandidate er frames q) threshold hc

theorem sortResult_perm (o : HashOrder) (result : List (Bytes × ℚ)) :
    (sortResult o result).Perm result :=
  (List.mergeSort_perm _ _).trans (o.ties.perm result)

theorem sortResult_sorted (o : HashOrder) (result : List (Bytes × ℚ)) :
    (sortResult o result).Pairwise fun a b => b.2 ≤ a.2 := by
  have h := @List.pairwise_mergeSort _ (fun p1 p2 : Bytes × ℚ => decide (p2.2 ≤ p1.2))
    (fun a b c hab hbc => by
      simp only [decide_eq_true_eq] at hab hbc ⊢
      exact hbc.trans hab)
    (fun a b => by simpa using le_total b.2 a.2) (o.ties.order result)
  exact h.imp fun hab => by simpa using hab

/-- `Query` appends the plain scan of the catalogue to `result`, sorts, and
leaves the store unchanged. -/
theorem queryFrames_spec (hs : Inv s) (er : EqualRange UInt64) (o : HashOrder)
    (q : List UInt64) (result : List (Bytes × ℚ)) :
    ∃ out, queryFrames er o s q result = some (toInt out.length, out, s) ∧
      (out : Multiset (Bytes × ℚ)) = result + s.catalogue.scan er q ∧
      out.Pairwise fun a b => b.2 ≤ a.2 := by
  obtain ⟨cands, s₁, found, hcands, hst, hperm⟩ :=
    candidates_checked (fun frames => checkCandidate er frames q) threshold
      (fun frames => checkCandidate_ne_none er frames q) hs o q result
  have hone : cands.foldlM (checkOne er q) (result, s₁) = some (result ++ found, s) := hst
  have hscan : (found : Multiset (Bytes × ℚ)) = s.catalogue.scan er q :=
    (Multiset.coe_eq_coe.mpr hperm).trans (Multiset.filterMap_coe _ _).symm
  refine ⟨sortResult o (result ++ found), ?_, ?_, sortResult_sorted o _⟩
  · simp only [queryFrames, hcands, hone, Option.bind_eq_bind, Option.bind_some]
  · rw [Multiset.coe_eq_coe.mpr (sortResult_perm o _), ← Multiset.coe_add, hscan]

/-- `Query` by name: the stored frames, or -1. -/
theorem queryName_spec (hs : Inv s) (videoName : Bytes) (dataItem : DataItem) :
    (videoName ∉ s.catalogue.names ∧ queryName s videoName dataItem = some (-1, dataItem)) ∨
    ∃ frames out, (videoName, frames) ∈ s.catalogue.videos ∧
      queryName s videoName dataItem = some (0, out) ∧ out.name = videoName ∧
      out.frames = frames := by
  cases hfind : s.db.find? videoName with
  | none =>
      exact .inl ⟨fun h => hs.mem_names.mp h hfind, by simp [queryName, hfind]⟩
  | some p =>
      have hmem := s.db.find?_eq_some_iff.mp hfind
      obtain ⟨di, hread, hname, -⟩ := hs.stored videoName p hmem
      refine .inr ⟨di.frames, dataItem.assign di, ?_, ?_, hname, rfl⟩
      · exact mem_catalogue.mpr (mem_content.mpr ⟨p, di, hmem, hread, rfl⟩)
      · simp [queryName, hfind, hread]

/-! ## The counters -/

theorem count_spec (hs : Inv s) : s.count = toInt s.catalogue.videos.card := by
  rw [count, ← hs.length_content]
  rfl

/-- The distinct non-blank frames of all videos are what the objects have
cached. -/
theorem Inv.frameTotal_eq (hs : Inv s) :
    s.catalogue.frameTotal = (s.items.map fun it => it.2.uniqFrmCnt).sum := by
  have hcat : s.catalogue.frameTotal
      = (s.content.map fun v => (distinctFrames v.2).length).sum := by
    rw [Catalogue.frameTotal, catalogue, Multiset.map_coe, Multiset.sum_coe]
  rw [hcat, hs.content_eq, List.map_map]
  exact congrArg List.sum (List.map_congr_left fun it hit => (hs.counted it.1 it.2 hit).symm)

/-- `FramesCount` counts the distinct non-blank frames of all videos. -/
theorem framesCount_spec (hs : Inv s) : s.framesCount = toInt s.catalogue.frameTotal := by
  have hlen : s.indexEntries.length = s.catalogue.frameTotal := by
    rw [hs.frameTotal_eq, indexEntries, List.length_flatMap]
    refine congrArg List.sum (List.map_congr_left fun it hit => ?_)
    rw [List.length_map, hs.counted it.1 it.2 hit]
  rw [framesCount_eq, hs.index.exact.length_eq, hlen]

end VideoDB

end VideoMatch.Server
