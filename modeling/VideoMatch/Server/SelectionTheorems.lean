/-
VideoMatch.Server.SelectionTheorems — what blank query frames do to the
candidates, and what `check_candidate` is called on.

`get_candidates1` skips the blank frame when it looks frames up, but
counts it among the distinct frames of the query; `add_frames_to_index`
does not count it among those of a video. Two queries with the same
non-blank hashes therefore find the same videos, and the length test sees
numbers that differ by one if only one of the queries has a blank frame.
`selection_same_iff` says when that matters: when some video found has a
length at a boundary of the test.

A candidate shares a hash with the query, so every comparison counts a
marked frame on both sides (`query_counts_marks`).
-/
import VideoMatch.Server.ScoreTheorems
import VideoMatch.Server.Reachable

namespace VideoMatch.Server

open VideoMatch.Cxx

namespace VideoDB

/-! ## The length test -/

theorem lengthDiffers_iff (u n : Nat) :
    lengthDiffers u n ↔ 60 < u ∧ (3 * n < 2 * u ∨ 3 * u < 2 * n) := by
  have hmore : (u : ℚ) > n * (3 / 2) ↔ 3 * n < 2 * u := by
    have hcast : (3 * n < 2 * u) ↔ (3 * n : ℚ) < 2 * u := by exact_mod_cast Iff.rfl
    rw [hcast]
    constructor <;> intro h <;> linarith
  have hless : (u : ℚ) * (3 / 2) < n ↔ 3 * u < 2 * n := by
    have hcast : (3 * u < 2 * n) ↔ (3 * u : ℚ) < 2 * n := by exact_mod_cast Iff.rfl
    rw [hcast]
    constructor <;> intro h <;> linarith
  rw [lengthDiffers, hmore, hless]

/-- A video with `u` distinct frames passes the length test for one of `n`
and `n + 1` only. -/
def AtBoundary (u n : Nat) : Prop :=
  60 < u ∧ (3 * n < 2 * u ∧ 2 * u ≤ 3 * (n + 1) ∨ 2 * n ≤ 3 * u ∧ 3 * u < 2 * (n + 1))

theorem lengthDiffers_succ_iff (u n : Nat) :
    (lengthDiffers u n ↔ lengthDiffers u (n + 1)) ↔ ¬ AtBoundary u n := by
  rw [lengthDiffers_iff, lengthDiffers_iff, AtBoundary]
  omega

/-! ## Distinct hashes -/

theorem length_distinctFrames_congr {q₁ q₂ : List UInt64}
    (h : ∀ k, k ≠ 0 → (k ∈ q₁ ↔ k ∈ q₂)) :
    (distinctFrames q₁).length = (distinctFrames q₂).length := by
  apply List.Perm.length_eq
  rw [List.perm_ext_iff_of_nodup (nodup_distinctFrames q₁) (nodup_distinctFrames q₂)]
  intro k
  rw [mem_distinctFrames, mem_distinctFrames]
  exact and_congr_left (h k)

/-- A query counts its blank frame. -/
theorem length_unorderedSet_eq (q : List UInt64) :
    (unorderedSet q).length = (distinctFrames q).length + if 0 ∈ q then 1 else 0 := by
  have hblank : EMPTY_FRAME = 0 := rfl
  split
  · next h0 =>
      have hperm : (unorderedSet q).Perm (0 :: distinctFrames q) := by
        have hnot : (0 : UInt64) ∉ distinctFrames q := by
          rw [mem_distinctFrames]
          exact fun h => h.2 rfl
        rw [List.perm_ext_iff_of_nodup (nodup_unorderedSet q)
          (List.nodup_cons.mpr ⟨hnot, nodup_distinctFrames q⟩)]
        intro k
        rw [mem_unorderedSet, List.mem_cons, mem_distinctFrames, hblank]
        by_cases hk : k = 0
        · simp [hk, h0]
        · simp [hk]
      simpa using hperm.length_eq
  · next h0 =>
      have hperm : (unorderedSet q).Perm (distinctFrames q) := by
        rw [List.perm_ext_iff_of_nodup (nodup_unorderedSet q) (nodup_distinctFrames q)]
        intro k
        rw [mem_unorderedSet, mem_distinctFrames, hblank]
        constructor
        · intro hk
          exact ⟨hk, fun heq => h0 (heq ▸ hk)⟩
        · exact And.left
      exact hperm.length_eq

/-! ## The selection -/

/-- Both queries select the same videos, whatever the orders of the walks. -/
def SelectSame (o₁ o₂ : HashOrder) (s : VideoDB) (q₁ q₂ : List UInt64) : Prop :=
  ∃ c₁ s₁ c₂ s₂, getCandidates1 o₁ s q₁ = some (c₁, s₁) ∧
    getCandidates1 o₂ s q₂ = some (c₂, s₂) ∧ ∀ p, p ∈ c₁ ↔ p ∈ c₂

/-- No video found by the hashes of `q` has a length at a boundary of the
test for the number of distinct non-blank hashes of `q`. -/
def NoneAtBoundary (s : VideoDB) (q : List UInt64) : Prop :=
  ∀ p di, (p, di) ∈ s.items → sharesFrame di.frames q →
    ¬ AtBoundary di.uniqFrmCnt (distinctFrames q).length

/-- The selections agree if the length test does on every video found. -/
theorem Inv.selectSame_iff {s : VideoDB} (hs : Inv s) (o₁ o₂ : HashOrder) {q₁ q₂ : List UInt64}
    (hq : ∀ k, k ≠ 0 → (k ∈ q₁ ↔ k ∈ q₂)) :
    SelectSame o₁ o₂ s q₁ q₂ ↔ ∀ p di, (p, di) ∈ s.items → sharesFrame di.frames q₁ →
      (lengthDiffers di.uniqFrmCnt (unorderedSet q₁).length ↔
        lengthDiffers di.uniqFrmCnt (unorderedSet q₂).length) := by
  have hshare : ∀ frames, sharesFrame frames q₁ ↔ sharesFrame frames q₂ := by
    intro frames
    apply exists_congr
    intro k
    constructor
    · intro h
      exact ⟨(hq k h.2.1).mp h.1, h.2⟩
    · intro h
      exact ⟨(hq k h.2.1).mpr h.1, h.2⟩
  obtain ⟨c₁, h₁, hperm₁⟩ := getCandidates1_spec hs o₁ q₁
  obtain ⟨c₂, h₂, hperm₂⟩ := getCandidates1_spec hs o₂ q₂
  have hmem₁ : ∀ p, p ∈ c₁ ↔ _ := fun p => hperm₁.mem_iff.trans mem_candidates
  have hmem₂ : ∀ p, p ∈ c₂ ↔ _ := fun p => hperm₂.mem_iff.trans mem_candidates
  constructor
  · intro h p di hp hdi
    obtain ⟨c₁', _, c₂', _, h₁', h₂', hsame⟩ := h
    rw [h₁, Option.some.injEq, Prod.mk.injEq] at h₁'
    rw [h₂, Option.some.injEq, Prod.mk.injEq] at h₂'
    rw [← h₁'.1, ← h₂'.1] at hsame
    -- an address holds one object
    have honly : ∀ di', (p, di') ∈ s.items → di' = di := by
      intro di' hp'
      have hread := (mem_items.mp hp').2
      rw [(mem_items.mp hp).2, Option.some.injEq] at hread
      exact hread.symm
    have hiff := hsame p
    rw [hmem₁, hmem₂] at hiff
    constructor
    · intro hd
      by_contra hn
      obtain ⟨di', hp', -, hfits⟩ := hiff.mpr ⟨di, hp, (hshare _).mp hdi, hn⟩
      exact hfits (honly di' hp' ▸ hd)
    · intro hd
      by_contra hn
      obtain ⟨di', hp', -, hfits⟩ := hiff.mp ⟨di, hp, hdi, hn⟩
      exact hfits (honly di' hp' ▸ hd)
  · intro h
    refine ⟨c₁, _, c₂, _, h₁, h₂, fun p => ?_⟩
    rw [hmem₁, hmem₂]
    constructor
    · intro hc
      obtain ⟨di, hp, hdi, hfits⟩ := hc
      exact ⟨di, hp, (hshare _).mp hdi, fun hd => hfits ((h p di hp hdi).mpr hd)⟩
    · intro hc
      obtain ⟨di, hp, hdi, hfits⟩ := hc
      have hdi₁ := (hshare _).mpr hdi
      exact ⟨di, hp, hdi₁, fun hd => hfits ((h p di hp hdi₁).mp hd)⟩

/-- Two queries with the same non-blank hashes select the same videos
exactly if both or neither has a blank frame, or no video they find has a
length at a boundary of the length test. -/
theorem selection_same_iff {s : VideoDB} (hs : Reachable s) (o₁ o₂ : HashOrder)
    {q₁ q₂ : List UInt64} (hq : ∀ k, k ≠ 0 → (k ∈ q₁ ↔ k ∈ q₂)) :
    SelectSame o₁ o₂ s q₁ q₂ ↔ ((0 ∈ q₁ ↔ 0 ∈ q₂) ∨ NoneAtBoundary s q₁) := by
  have hlen := length_distinctFrames_congr hq
  rw [hs.inv.selectSame_iff o₁ o₂ hq, NoneAtBoundary, length_unorderedSet_eq,
    length_unorderedSet_eq, ← hlen]
  by_cases h₁ : (0 : UInt64) ∈ q₁ <;> by_cases h₂ : (0 : UInt64) ∈ q₂
  · simp [h₁, h₂]
  · simp only [h₁, h₂, if_true, if_false, Nat.add_zero, ← lengthDiffers_succ_iff, false_or,
      iff_false, not_true_eq_false]
    exact forall₄_congr fun _ _ _ _ => ⟨Iff.symm, Iff.symm⟩
  · simp only [h₁, h₂, if_true, if_false, Nat.add_zero, ← lengthDiffers_succ_iff, false_or,
      iff_true]
  · simp [h₁, h₂]

theorem selection_same_single : ∃ s : VideoDB, s.content = [(ascii "v", [1, 0, 1, 2])] ∧
    SelectSame default default s [2, 2] [2] := by
  obtain ⟨s, hs, hcontent⟩ := addReached_single (ascii "v") [1, 0, 1, 2]
  have hq : ∀ k : UInt64, k ≠ 0 → (k ∈ [2, 2] ↔ k ∈ [2]) := by
    intro k _
    simp
  exact ⟨s, hcontent, (selection_same_iff hs.reachable default default hq).mpr (.inl (by decide))⟩

/-- The frames 1 to `n`. -/
def countingFrames (n : Nat) : List UInt64 := (List.range n).map fun i => UInt64.ofNat (i + 1)

/-- A video of 62 distinct frames, and a query with 41 of them: 62 is more
than one and a half times 41, but not more than one and a half times 42.
The query finds the video only if it has a blank frame, too. -/
theorem selection_differs_example : ∃ s : VideoDB, Reachable s ∧
    s.content = [(ascii "v", countingFrames 62)] ∧
    (∀ k, k ≠ 0 → (k ∈ countingFrames 41 ↔ k ∈ 0 :: countingFrames 41)) ∧
    ¬ SelectSame default default s (countingFrames 41) (0 :: countingFrames 41) := by
  obtain ⟨s, hs, hcontent⟩ := addReached_single (ascii "v") (countingFrames 62)
  have hinv := hs.reachable.inv
  have hq : ∀ k : UInt64, k ≠ 0 → (k ∈ countingFrames 41 ↔ k ∈ 0 :: countingFrames 41) := by
    intro k hk
    simp [hk]
  refine ⟨s, hs.reachable, hcontent, hq, ?_⟩
  rw [hinv.selectSame_iff default default hq]
  intro h
  have hmem : (ascii "v", countingFrames 62) ∈ s.content := by simp [hcontent]
  obtain ⟨p, di, hdb, hread, hframes⟩ := mem_content.mp hmem
  have hp : (p, di) ∈ s.items := mem_items.mpr ⟨⟨_, hdb⟩, hread⟩
  have hcnt : di.uniqFrmCnt = 62 := by
    rw [hinv.counted p di hp, hframes]
    decide +kernel
  have hone : (1 : UInt64) ∈ countingFrames 41 ∧ (1 : UInt64) ∈ countingFrames 62 := by
    decide +kernel
  have hiff := h p di hp ⟨1, hone.1, by decide, hframes ▸ hone.2⟩
  have h41 : (unorderedSet (countingFrames 41)).length = 41 := by decide +kernel
  have h42 : (unorderedSet (0 :: countingFrames 41)).length = 42 := by decide +kernel
  rw [hcnt, h41, h42, lengthDiffers_iff, lengthDiffers_iff] at hiff
  omega

/-! ## The calls of a query -/

/-- Every call of `check_candidate` that `Query` makes, on the frames of
the candidate it has come to, compares non-empty lists and counts a marked
frame on both sides. -/
theorem query_counts_marks {s : VideoDB} (hs : Reachable s) (er : EqualRange UInt64)
    (o : HashOrder) (q : List UInt64) (result : List (Bytes × ℚ)) :
    ∃ cands s', getCandidates1 o s q = some (cands, s') ∧
      ∀ done i rest, cands = done ++ i :: rest →
        ∃ st item, done.foldlM (checkOne er q) (result, s') = some st ∧
          st.2.heap.read i = some item ∧ CountsMarks er item.frames q := by
  obtain ⟨cands, hcands, hperm⟩ := getCandidates1_spec hs.inv o q
  refine ⟨cands, _, hcands, ?_⟩
  intro done i rest hsplit
  have hitem : ∀ p ∈ cands, ∃ di, (p, di) ∈ s.items ∧ IsCandidate q di := fun p hp =>
    mem_candidates.mp (hperm.mem_iff.mp hp)
  have hfold := foldlM_checkOne er q hs.inv (i :: rest) done result fun p hp => by
    obtain ⟨di, hdi, -⟩ := hitem p (by simp [hsplit, hp])
    exact ⟨di, hdi⟩
  obtain ⟨di, hdi, hshare, -⟩ := hitem i (by simp [hsplit])
  obtain ⟨k, hk, -, hframe⟩ := hshare
  rw [hsplit]
  refine ⟨_, { di with ref := di.ref + (i :: rest).count i }, hfold, ?_,
    countsMarks_of_mem er hk hframe⟩
  rw [read_withRefs, (mem_items.mp hdi).2, Option.map_some]

theorem query_counts_single : ∃ s : VideoDB, s.content = [(ascii "v", [1, 0, 1, 2])] ∧
    ∃ cands s', getCandidates1 default s [2, 2] = some (cands, s') ∧
      ∀ done i rest, cands = done ++ i :: rest →
        ∃ st item, done.foldlM (checkOne default [2, 2]) ([], s') = some st ∧
          st.2.heap.read i = some item ∧ CountsMarks default item.frames [2, 2] := by
  obtain ⟨s, hs, hcontent⟩ := addReached_single (ascii "v") [1, 0, 1, 2]
  exact ⟨s, hcontent, query_counts_marks hs.reachable default default [2, 2] []⟩

end VideoDB

end VideoMatch.Server
