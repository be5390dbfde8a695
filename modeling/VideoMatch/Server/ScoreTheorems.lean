/-
VideoMatch.Server.ScoreTheorems — the two partial scores.

`checkCandidateScores` is `check_candidate` with the local variables
`score1` and `score2` kept beside the value returned; a side whose score
is not reached has none.

* `marks_witnessed`: at every moment of the main loop every mark is a
  small difference between two frames, and the scores are ratios.
* `exact_matches_found`: a query whose hashes all occur in the base has a
  partial score of at least 15/18 on its side.
* `countsMarks_of_mem`: two lists with a common hash have a marked frame
  on both sides, so the replacement of a count of 0 by 1 is not used.
* `checkCandidate_total`: every comparison ends, with a score between 0
  and 1.
-/
import VideoMatch.Server.MarkTheorems

namespace VideoMatch.Server

open VideoMatch.Cxx

/-! ## The scores on the way -/

/-- `score1` and `score2`, where they are computed, and the value
returned. -/
structure Scores where
  score1 : Option ℚ
  score2 : Option ℚ
  result : ℚ

/-- `check_candidate`, with its partial scores. -/
def checkCandidateScores (er : EqualRange UInt64) (bf cf : List UInt64) : Option Scores := do
  let m ← finalMarks cf bf er
  let (total1, cnt1) ← sumMarks m.cmark
  if cf.length * bf.length = 0 then
    some ⟨none, none, 0⟩
  else
    let cnt1 := if cnt1 = 0 then 1 else cnt1
    if total1 / cnt1 > 18 then
      some ⟨none, none, 0⟩
    else do
      let score1 := partialScore total1 cnt1 cf.length
      let (total2, cnt2) ← sumMarks m.bmark
      let cnt2 := if cnt2 = 0 then 1 else cnt2
      if total2 / cnt2 > 18 then
        some ⟨some score1, none, 0⟩
      else
        let score2 := partialScore total2 cnt2 bf.length
        some ⟨some score1, some score2, score1 * score2⟩

/-- The count that divides: 0 is replaced by 1. -/
def divisor (cnt : Nat) : Nat := if cnt = 0 then 1 else cnt

theorem divisor_of_pos {cnt : Nat} (h : 0 < cnt) : divisor cnt = cnt := if_neg h.ne'

/-- The scores, read off the marks. -/
theorem checkCandidateScores_eq {er : EqualRange UInt64} {bf cf : List UInt64}
    {m : Marks cf.length bf.length} (hm : finalMarks cf bf er = some m) :
    checkCandidateScores er bf cf = some
      (if cf.length * bf.length = 0 then ⟨none, none, 0⟩
      else if (markTotals m.cmark).1 / divisor (markTotals m.cmark).2 > 18 then ⟨none, none, 0⟩
      else
        let score1 := partialScore (markTotals m.cmark).1 (divisor (markTotals m.cmark).2) cf.length
        if (markTotals m.bmark).1 / divisor (markTotals m.bmark).2 > 18 then
          ⟨some score1, none, 0⟩
        else
          let score2 :=
            partialScore (markTotals m.bmark).1 (divisor (markTotals m.bmark).2) bf.length
          ⟨some score1, some score2, score1 * score2⟩) := by
  have hdiv : ∀ cnt : Nat, (if cnt = 0 then 1 else cnt) = divisor cnt := fun _ => rfl
  simp only [checkCandidateScores, hm, Option.bind_eq_bind, Option.bind_some, sumMarks_eq, hdiv,
    apply_ite some]

theorem checkCandidateScores_result (er : EqualRange UInt64) (bf cf : List UInt64) :
    (checkCandidateScores er bf cf).map Scores.result = checkCandidate er bf cf := by
  have hdiv : ∀ cnt : Nat, (if cnt = 0 then 1 else cnt) = divisor cnt := fun _ => rfl
  unfold checkCandidateScores checkCandidate
  cases finalMarks cf bf er with
  | none => rfl
  | some m =>
      simp only [Option.bind_eq_bind, Option.bind_some, sumMarks_eq, hdiv,
        apply_ite (Option.map Scores.result), Option.map_some]

/-! ## Sums of marks -/

/-- The sum of small marks. -/
theorem markTotals_fst_le {mark : List Nat} {b : Nat}
    (h : ∀ i d : Nat, mark[i]? = some d → d = 255 ∨ d ≤ b) :
    (markTotals mark).1 ≤ b * (markTotals mark).2 := by
  have hle : ∀ d ∈ mark.filter (· ≠ 255), d ≤ b := by
    intro d hd
    obtain ⟨hmem, hne⟩ := List.mem_filter.mp hd
    obtain ⟨i, hi⟩ := List.mem_iff_getElem?.mp hmem
    rcases h i d hi with h255 | hsmall
    · simp [h255] at hne
    · exact hsmall
  have hsum := List.sum_le_card_nsmul _ b hle
  rw [smul_eq_mul, Nat.mul_comm] at hsum
  exact hsum

theorem markTotals_snd_pos {mark : List Nat} (h : ∃ i d : Nat, mark[i]? = some d ∧ d ≠ 255) :
    0 < (markTotals mark).2 := by
  obtain ⟨i, d, hd, hne⟩ := h
  apply List.length_pos_of_mem (a := d)
  rw [List.mem_filter]
  exact ⟨List.mem_of_getElem? hd, by simpa using hne⟩

theorem divisor_le {cnt n : Nat} (hcnt : cnt ≤ n) (hn : 0 < n) : divisor cnt ≤ n := by
  unfold divisor
  split <;> omega

/-! ## Ratios -/

theorem scores_bounds (er : EqualRange UInt64) (bf cf : List UInt64) :
    ∃ s, checkCandidateScores er bf cf = some s ∧ checkCandidate er bf cf = some s.result ∧
      (∀ v, s.score1 = some v → 0 ≤ v ∧ v ≤ 1) ∧ (∀ v, s.score2 = some v → 0 ≤ v ∧ v ≤ 1) ∧
      0 ≤ s.result ∧ s.result ≤ 1 := by
  obtain ⟨m, hm, -⟩ := finalMarks_exact cf bf er
  have hscores := checkCandidateScores_eq hm
  have hresult := checkCandidateScores_result er bf cf
  rw [hscores, Option.map_some] at hresult
  refine ⟨_, hscores, hresult.symm, ?_⟩
  have hcntc := (markTotals_snd_le m.cmark).trans_eq m.hc
  have hcntb := (markTotals_snd_le m.bmark).trans_eq m.hb
  split
  · simp
  next hsize =>
  have hpos : 0 < cf.length ∧ 0 < bf.length :=
    ⟨Nat.pos_of_ne_zero (left_ne_zero_of_mul hsize),
      Nat.pos_of_ne_zero (right_ne_zero_of_mul hsize)⟩
  split
  · simp
  next havg1 =>
  have hs1 := partialScore_bounds (Nat.le_of_not_lt havg1) (divisor_le hcntc hpos.1)
  simp only
  split
  · simp [hs1]
  next havg2 =>
  have hs2 := partialScore_bounds (Nat.le_of_not_lt havg2) (divisor_le hcntb hpos.2)
  simp [hs1, hs2, mul_nonneg hs1.1 hs2.1, mul_le_one₀ hs1.2 hs2.1 hs2.2]

/-- Every comparison ends, with a score between 0 and 1. -/
theorem checkCandidate_total (er : EqualRange UInt64) (bf cf : List UInt64) :
    ∃ score, checkCandidate er bf cf = some score ∧ 0 ≤ score ∧ score ≤ 1 := by
  obtain ⟨s, -, hresult, -, -, hbounds⟩ := scores_bounds er bf cf
  exact ⟨s.result, hresult, hbounds⟩

/-- For lists of fewer than 2^26 frames the loop ends with every access in
range; at each of its moments every mark is 255 or a difference of at most
28 bits with a frame of the other side; the sums fit an `int`; and the
partial scores that are computed, and the score returned, lie between 0
and 1. -/
theorem marks_witnessed (er : EqualRange UInt64) (cf bf : List UInt64)
    (hcf : cf.length < 2 ^ 26) (hbf : bf.length < 2 ^ 26) :
    ∃ r, markingRun cf bf er = some r ∧ finalMarks cf bf er = some r.marks ∧
      (∀ past, past <:+ r.log →
        ∃ m, replay cf.length bf.length past = some m ∧ Witnessed cf bf m) ∧
      (∃ total cnt, sumMarks r.marks.cmark = some (total, cnt) ∧ total < 2 ^ 31) ∧
      (∃ total cnt, sumMarks r.marks.bmark = some (total, cnt) ∧ total < 2 ^ 31) ∧
      ∃ s, checkCandidateScores er bf cf = some s ∧ checkCandidate er bf cf = some s.result ∧
        (∀ v, s.score1 = some v → 0 ≤ v ∧ v ≤ 1) ∧ (∀ v, s.score2 = some v → 0 ≤ v ∧ v ≤ 1) ∧
        0 ≤ s.result ∧ s.result ≤ 1 := by
  obtain ⟨r, hr, hexp, -⟩ := markingRun_rule cf bf er (P := fun _ _ => True)
    trivial (fun _ _ _ _ _ _ _ _ => trivial)
  have hwit := hexp.witnessed_marks
  have hsum : ∀ mark : List Nat, mark.length < 2 ^ 26 →
      (∀ i d : Nat, mark[i]? = some d → d = 255 ∨ d ≤ 28) →
      ∃ total cnt, sumMarks mark = some (total, cnt) ∧ total < 2 ^ 31 := by
    intro mark hlen hsmall
    have hle := markTotals_fst_le hsmall
    have hcnt := markTotals_snd_le mark
    have hlt : (markTotals mark).1 < 2 ^ 31 := by omega
    exact ⟨_, _, sumMarks_eq mark, hlt⟩
  refine ⟨r, hr, finalMarks_of_run cf bf hr, hexp.witnessed, ?_, ?_, scores_bounds er bf cf⟩
  · apply hsum _ (lt_of_eq_of_lt r.marks.hc hcf)
    intro i d hd
    exact (hwit.cmark i d hd).imp_right And.left
  · apply hsum _ (lt_of_eq_of_lt r.marks.hb hbf)
    intro j d hd
    exact (hwit.bmark j d hd).imp_right And.left

theorem marks_witnessed_pair : ∃ r, markingRun [1, 3] [1] default = some r ∧
    ∀ past, past <:+ r.log → ∃ m, replay 2 1 past = some m ∧ Witnessed [1, 3] [1] m := by
  obtain ⟨r, hr, -, hwit, -⟩ := marks_witnessed default [1, 3] [1] (by decide) (by decide)
  exact ⟨r, hr, hwit⟩

/-! ## Exact matches -/

/-- A side on which every frame is well matched. -/
theorem partialScore_good (mark : List Nat) (hpos : 0 < mark.length)
    (hgood : ∀ i : Nat, i < mark.length → ∃ d : Nat, mark[i]? = some d ∧ d < GOOD_BITS) :
    (markTotals mark).1 / divisor (markTotals mark).2 ≤ 3 ∧
      15 / 18 ≤ partialScore (markTotals mark).1 (divisor (markTotals mark).2) mark.length := by
  have h4 : GOOD_BITS = 4 := rfl
  have hsmall : ∀ i d : Nat, mark[i]? = some d → d ≤ 3 := by
    intro i d hd
    obtain ⟨d', hd', hlt⟩ := hgood i (List.getElem?_eq_some_iff.mp hd).1
    rw [hd, Option.some.injEq] at hd'
    omega
  have hall : mark.filter (· ≠ 255) = mark := by
    rw [List.filter_eq_self]
    intro d hd
    obtain ⟨i, hi⟩ := List.mem_iff_getElem?.mp hd
    have hle := hsmall i d hi
    simp only [ne_eq, decide_not, Bool.not_eq_eq_eq_not, Bool.not_true, decide_eq_false_iff_not]
    omega
  have hcnt : (markTotals mark).2 = mark.length := congrArg List.length hall
  have hle := markTotals_fst_le (b := 3) fun i d hd => .inr (hsmall i d hd)
  rw [hcnt] at hle
  have havg : (markTotals mark).1 / mark.length ≤ 3 := by
    rw [Nat.div_le_iff_le_mul hpos]
    omega
  rw [hcnt, divisor_of_pos hpos]
  refine ⟨havg, ?_⟩
  have havg' : (((markTotals mark).1 / mark.length : Nat) : ℚ) ≤ 3 := by exact_mod_cast havg
  have hne : (mark.length : ℚ) ≠ 0 := by positivity
  rw [partialScore, CUT_RATIO, mul_zero, sub_zero, mul_one, div_self hne, mul_one]
  linarith

/-- When the main loop ends, every query frame whose hash occurs in the
base has a mark below `GOOD_BITS`. If all of them occur there and the
query is not empty, the partial score of the query is computed and is at
least 15/18. -/
theorem exact_matches_found (er : EqualRange UInt64) (cf bf : List UInt64) :
    (∃ m, finalMarks cf bf er = some m ∧
      ∀ (i : Nat) x, cf[i]? = some x → x ∈ bf →
        ∃ d : Nat, m.cmark[i]? = some d ∧ d < GOOD_BITS) ∧
    ((∀ x ∈ cf, x ∈ bf) → ∃ s, checkCandidateScores er bf cf = some s ∧
      (cf = [] ∧ s.score1 = none ∨ ∃ v, s.score1 = some v ∧ 15 / 18 ≤ v)) := by
  obtain ⟨m, hm, -, hgood, -⟩ := finalMarks_exact cf bf er
  refine ⟨⟨m, hm, hgood⟩, ?_⟩
  intro hall
  refine ⟨_, checkCandidateScores_eq hm, ?_⟩
  by_cases hcf : cf = []
  · left
    have hsize : cf.length * bf.length = 0 := by simp [hcf]
    exact ⟨hcf, by rw [if_pos hsize]⟩
  · right
    have hlen : 0 < cf.length := List.length_pos_of_ne_nil hcf
    have hbf : 0 < bf.length :=
      List.length_pos_of_mem (hall _ (List.getElem_mem hlen))
    have hmarks := partialScore_good m.cmark (by rw [m.hc]; exact hlen) fun i hi => by
      have hlt : i < cf.length := lt_of_lt_of_eq hi m.hc
      exact hgood i _ (List.getElem?_eq_getElem hlt) (hall _ (List.getElem_mem hlt))
    rw [m.hc] at hmarks
    have hsize : ¬ cf.length * bf.length = 0 := by positivity
    rw [if_neg hsize, if_neg (by omega)]
    refine ⟨_, ?_, hmarks.2⟩
    simp only
    split <;> rfl

/-! ## Marked frames on both sides -/

/-- `check_candidate` on these lists counts a marked frame on both sides. -/
def CountsMarks (er : EqualRange UInt64) (bf cf : List UInt64) : Prop :=
  bf ≠ [] ∧ cf ≠ [] ∧ ∃ m, finalMarks cf bf er = some m ∧
    (∃ total cnt, sumMarks m.cmark = some (total, cnt) ∧ 0 < cnt) ∧
    ∃ total cnt, sumMarks m.bmark = some (total, cnt) ∧ 0 < cnt

/-- A common hash is enough: the query frame that carries it is well
matched in the end, and some base frame is marked with it. -/
theorem countsMarks_of_mem (er : EqualRange UInt64) {bf cf : List UInt64} {x : UInt64}
    (hcf : x ∈ cf) (hbf : x ∈ bf) : CountsMarks er bf cf := by
  obtain ⟨m, hm, -, hgood, hpair⟩ := finalMarks_exact cf bf er
  obtain ⟨i, hi⟩ := List.mem_iff_getElem?.mp hcf
  obtain ⟨d, hd, hlt⟩ := hgood i x hi hbf
  have h4 : GOOD_BITS = 4 := rfl
  have hmarked : ∃ i d : Nat, m.cmark[i]? = some d ∧ d ≠ 255 := ⟨i, d, hd, by omega⟩
  exact ⟨List.ne_nil_of_mem hbf, List.ne_nil_of_mem hcf, m, hm,
    ⟨_, _, sumMarks_eq _, markTotals_snd_pos hmarked⟩,
    ⟨_, _, sumMarks_eq _, markTotals_snd_pos (hpair hmarked)⟩⟩

end VideoMatch.Server
