/-
VideoMatch.Server.DoubleTheorems — what rounding does to the scores.

Seven roundings lie between an exact score and the one that
`check_candidate` returns (`checkCandidate_rounded`). An exact score is a
fraction with a denominator of at most 324 times the product of the
lengths. So it is either 9/100 or too far from it for the rounded one to be
on the other side of the rounded threshold (`ScoreRounded.decides`).

So a query reports the same videos in double precision, up to those whose
exact score is the threshold (`double_reports_same`). A common part of two
videos is reported with the rounded product of its shares of them
(`overlap_reported`).
-/
import VideoMatch.Server.DoubleScore
import VideoMatch.Server.SimilarityTheorems

namespace VideoMatch.Server

open VideoMatch.Cxx

/-! ## One score -/

theorem eq_one_of_mul_eq_one {x y : ℚ} (hx : 0 ≤ x ∧ x ≤ 1) (hy : 0 ≤ y ∧ y ≤ 1)
    (h : x * y = 1) : x = 1 ∧ y = 1 :=
  ⟨hx.2.antisymm (h ▸ mul_le_of_le_one_right hx.1 hy.2),
    hy.2.antisymm (h ▸ mul_le_of_le_one_left hy.1 hx.2)⟩

/-- The integers on the way are not changed. -/
theorem partialScoreDouble_eq {total cnt n : Nat} (havg : total / cnt ≤ 18) (hcnt : cnt ≤ n)
    (hn : n ≤ 2 ^ 53) : partialScoreDouble total cnt n
      = toDouble (toDouble ((18 - (total / cnt : Nat)) / 18) * toDouble ((cnt : ℚ) / n)) := by
  have h18 : Double.sub 18 (toDouble (total / cnt : Nat)) = 18 - (total / cnt : Nat) := by
    have hsub : (18 : ℚ) - (total / cnt : Nat) = (18 - total / cnt : Nat) := by
      rw [Nat.cast_sub havg, Nat.cast_ofNat]
    rw [toDouble_natCast (havg.trans (by norm_num)), Double.sub, hsub,
      toDouble_natCast ((Nat.sub_le _ _).trans (by norm_num))]
  have hone : Double.sub 1 (Double.mul 2 (toDouble CUT_RATIO)) = 1 := by decide +kernel
  have hlen : Double.mul (toDouble n) 1 = n := by
    rw [Double.mul, mul_one, toDouble_toDouble, toDouble_natCast hn]
  rw [partialScoreDouble, h18, hone, hlen, toDouble_natCast (hcnt.trans hn)]
  rfl

theorem partialScore_eq (total cnt n : Nat) :
    partialScore total cnt n = (18 - (total / cnt : Nat)) / 18 * ((cnt : ℚ) / n) := by
  rw [partialScore, CUT_RATIO, mul_zero, sub_zero, mul_one]

/-- Three roundings, which change nothing if all frames are matched
completely. -/
theorem partialScore_rounded {total cnt n : Nat} (havg : total / cnt ≤ 18) (hcnt : cnt ≤ n)
    (hn : n ≤ 2 ^ 53) : Rounded 3 (partialScore total cnt n) (partialScoreDouble total cnt n) ∧
      (partialScore total cnt n = 1 → partialScoreDouble total cnt n = 1) := by
  have havg' : ((total / cnt : Nat) : ℚ) ≤ 18 := by exact_mod_cast havg
  have hclose : (0 : ℚ) ≤ (18 - (total / cnt : Nat)) / 18 ∧
      (18 - ((total / cnt : Nat) : ℚ)) / 18 ≤ 1 := by
    have hnn : (0 : ℚ) ≤ (total / cnt : Nat) := Nat.cast_nonneg _
    exact ⟨div_nonneg (by linarith) (by norm_num), by rw [div_le_one (by norm_num)]; linarith⟩
  have hshare : (0 : ℚ) ≤ (cnt : ℚ) / n ∧ (cnt : ℚ) / n ≤ 1 :=
    ⟨by positivity, div_le_one_of_le₀ (by exact_mod_cast hcnt) (Nat.cast_nonneg n)⟩
  rw [partialScore_eq, partialScoreDouble_eq havg hcnt hn]
  generalize (18 - ((total / cnt : Nat) : ℚ)) / 18 = x at hclose ⊢
  generalize (cnt : ℚ) / n = y at hshare ⊢
  refine ⟨((Rounded.refl hclose.1).round.mul (Rounded.refl hshare.1).round).round, fun hone => ?_⟩
  obtain ⟨rfl, rfl⟩ := eq_one_of_mul_eq_one hclose hshare hone
  decide +kernel

theorem partialScore_fraction {total cnt n : Nat} (havg : total / cnt ≤ 18) :
    ∃ a : Nat, partialScore total cnt n = a / (18 * n) := by
  refine ⟨(18 - total / cnt) * cnt, ?_⟩
  rw [partialScore_eq, div_mul_div_comm, Nat.cast_mul, Nat.cast_sub havg, Nat.cast_ofNat]

/-- The exact score and the rounded one. -/
structure ScoreRounded (bf cf : List UInt64) (score d : ℚ) : Prop where
  rounded : Rounded 7 score d
  le_one : score ≤ 1
  one : score = 1 → d = 1
  fraction : ∃ a : Nat, score = a / (324 * (cf.length * bf.length))

/-- Seven roundings change a score by less than one part in 2^50. -/
theorem ScoreRounded.abs_sub_le {bf cf : List UInt64} {score d : ℚ}
    (h : ScoreRounded bf cf score d) : |d - score| ≤ score / 2 ^ 50 := by
  have hseven : (1 + roundoff) ^ 7 - 1 ≤ 1 / 2 ^ 50 := by norm_num [roundoff]
  calc |d - score| ≤ score * ((1 + roundoff) ^ 7 - 1) := h.rounded.abs_sub_le
    _ ≤ score * (1 / 2 ^ 50) := mul_le_mul_of_nonneg_left hseven h.rounded.nonneg
    _ = score / 2 ^ 50 := mul_one_div _ _

theorem checkCandidate_rounded (er : EqualRange UInt64) {bf cf : List UInt64}
    (hbf : bf.length ≤ 2 ^ 53) (hcf : cf.length ≤ 2 ^ 53) :
    ∃ score d, checkCandidate er bf cf = some score ∧ checkCandidateDouble er bf cf = some d ∧
      ScoreRounded bf cf score d := by
  obtain ⟨m, hm, -⟩ := finalMarks_exact cf bf er
  have hdiv : ∀ cnt : Nat, (if cnt = 0 then 1 else cnt) = divisor cnt := fun _ => rfl
  have hzero : ScoreRounded bf cf 0 0 :=
    ⟨⟨le_rfl, by simp, by simp⟩, zero_le_one, fun h => absurd h zero_ne_one, 0, by simp⟩
  have hcntc := (markTotals_snd_le m.cmark).trans_eq m.hc
  have hcntb := (markTotals_snd_le m.bmark).trans_eq m.hb
  simp only [checkCandidate, checkCandidateDouble, hm, Option.bind_eq_bind, Option.bind_some,
    sumMarks_eq, hdiv]
  split
  · exact ⟨0, 0, rfl, rfl, hzero⟩
  next hsize =>
  have hc : 0 < cf.length := Nat.pos_of_ne_zero (left_ne_zero_of_mul hsize)
  have hb : 0 < bf.length := Nat.pos_of_ne_zero (right_ne_zero_of_mul hsize)
  split
  · exact ⟨0, 0, rfl, rfl, hzero⟩
  next havg1 =>
  split
  · exact ⟨0, 0, rfl, rfl, hzero⟩
  next havg2 =>
  rw [Nat.not_lt] at havg1 havg2
  obtain ⟨hr1, hone1⟩ := partialScore_rounded havg1 (divisor_le hcntc hc) hcf
  obtain ⟨hr2, hone2⟩ := partialScore_rounded havg2 (divisor_le hcntb hb) hbf
  have hs1 := partialScore_bounds havg1 (divisor_le hcntc hc)
  have hs2 := partialScore_bounds havg2 (divisor_le hcntb hb)
  obtain ⟨a1, ha1⟩ := partialScore_fraction (n := cf.length) havg1
  obtain ⟨a2, ha2⟩ := partialScore_fraction (n := bf.length) havg2
  refine ⟨_, _, rfl, rfl, (hr1.mul hr2).round, mul_le_one₀ hs1.2 hs2.1 hs2.2, fun hone => ?_,
    a1 * a2, ?_⟩
  · obtain ⟨h1, h2⟩ := eq_one_of_mul_eq_one hs1 hs2 hone
    rw [hone1 h1, hone2 h2]
    decide +kernel
  · rw [ha1, ha2, div_mul_div_comm, mul_mul_mul_comm, Nat.cast_mul]
    norm_num

/-! ## The threshold -/

/-- The rounded threshold is a little below or above 9/100. -/
theorem thresholdDouble_near :
    |VideoDB.thresholdDouble - VideoDB.threshold| < 1 / 2 ^ 56 := by decide +kernel

/-- A fraction with a small denominator is 9/100 or not close to it. -/
theorem far_from_threshold {a n : Nat} (hn : n < 2 ^ 36)
    (hne : (a : ℚ) / (324 * n) ≠ VideoDB.threshold) :
    1 / 2 ^ 49 < |(a : ℚ) / (324 * n) - VideoDB.threshold| := by
  rcases Nat.eq_zero_or_pos n with rfl | hpos
  · norm_num [VideoDB.threshold]
  have hpos' : (0 : ℚ) < n := by exact_mod_cast hpos
  have hdiff : (a : ℚ) / (324 * n) - VideoDB.threshold
      = ((25 * a - 729 * n : Int) : ℚ) / (8100 * n) := by
    rw [VideoDB.threshold]
    push_cast
    field_simp
    ring
  rw [hdiff, abs_div, abs_of_pos (by positivity : (0 : ℚ) < 8100 * n), lt_div_iff₀ (by positivity)]
  have hint : (1 : ℚ) ≤ |((25 * a - 729 * n : Int) : ℚ)| := by
    have hne' : (25 * a - 729 * n : Int) ≠ 0 := by
      intro hzero
      rw [hzero, Int.cast_zero, zero_div, sub_eq_zero] at hdiff
      exact hne hdiff
    exact_mod_cast Int.one_le_abs hne'
  have hn' : (n : ℚ) < 2 ^ 36 := by exact_mod_cast hn
  linarith

/-- A score that is not the threshold has its rounding on the same side. -/
theorem ScoreRounded.decides {bf cf : List UInt64} {score d : ℚ} (h : ScoreRounded bf cf score d)
    (hsize : cf.length * bf.length < 2 ^ 36) :
    (VideoDB.threshold < score → VideoDB.thresholdDouble < d) ∧
      (score < VideoDB.threshold → d < VideoDB.thresholdDouble) := by
  have hfar : score ≠ VideoDB.threshold → 1 / 2 ^ 49 < |score - VideoDB.threshold| := by
    intro hne
    obtain ⟨a, rfl⟩ := h.fraction
    rw [← Nat.cast_mul] at hne ⊢
    exact far_from_threshold hsize hne
  have herror := abs_le.mp h.abs_sub_le
  have hthreshold := abs_lt.mp thresholdDouble_near
  have hle := h.le_one
  constructor
  · intro hlt
    have hgap := hfar hlt.ne'
    rw [abs_of_pos (sub_pos.mpr hlt)] at hgap
    linarith
  · intro hlt
    have hgap := hfar hlt.ne
    rw [abs_of_neg (sub_neg.mpr hlt)] at hgap
    linarith

/-! ## Queries -/

theorem checkCandidateDouble_ne_none (er : EqualRange UInt64) (bf cf : List UInt64) :
    checkCandidateDouble er bf cf ≠ none := by
  obtain ⟨m, hm, -⟩ := finalMarks_exact cf bf er
  simp only [checkCandidateDouble, hm, Option.bind_eq_bind, Option.bind_some, sumMarks_eq]
  split_ifs <;> exact Option.some_ne_none _

namespace VideoDB

variable {s : VideoDB}

/-- A query in double precision reports the videos that share a hash, pass
the length test and score above the rounded threshold, each once, in
descending order. -/
theorem mem_answerDouble (hs : Reachable s) (er : EqualRange UInt64) (o : HashOrder)
    (q : List UInt64) : ∃ out, queryFramesDouble er o s q [] = some (toInt out.length, out, s) ∧
      out.Pairwise (fun a b => b.2 ≤ a.2) ∧ (out.map Prod.fst).Nodup ∧
      (∀ r ∈ out, ∃ frames, (r.1, frames) ∈ s.content) ∧
      ∀ name frames, (name, frames) ∈ s.content → ∀ d, (name, d) ∈ out ↔
        sharesFrame frames q ∧
        ¬ lengthDiffers (distinctFrames frames).length (unorderedSet q).length ∧
        checkCandidateDouble er frames q = some d ∧ d > thresholdDouble := by
  obtain ⟨check, hcheck⟩ : ∃ check, check = fun frames => checkCandidateDouble er frames q :=
    ⟨_, rfl⟩
  have htotal : ∀ frames, check frames ≠ none := by
    rw [hcheck]
    exact fun frames => checkCandidateDouble_ne_none er frames q
  have hone : checkOneDouble er q = checkOneWith check thresholdDouble := by rw [hcheck]; rfl
  obtain ⟨cands, s₁, found, hcands, hst, hperm⟩ :=
    candidates_checked check thresholdDouble htotal hs.inv o q []
  have hpairs : (sortResult o found).Perm
      (s.content.filterMap (matchWith check thresholdDouble q)) :=
    (sortResult_perm o found).trans hperm
  have hmem : ∀ r, r ∈ sortResult o found ↔
      ∃ v ∈ s.content, matchWith check thresholdDouble q v = some r :=
    fun r => by rw [hpairs.mem_iff, List.mem_filterMap]
  refine ⟨sortResult o found, ?_, sortResult_sorted o found, ?_, ?_, ?_⟩
  · simp only [queryFramesDouble, hcands, hone, hst, Option.bind_eq_bind, Option.bind_some,
      List.nil_append]
  · have hle := names_filterMap_le (f := matchWith check thresholdDouble q)
      (fun _ _ h => ((matchWith_eq_some_iff _ _).mp h).1) s.catalogue.videos
    rw [(hpairs.map Prod.fst).nodup_iff]
    exact Multiset.nodup_of_le hle s.catalogue.nodup
  · intro r hr
    obtain ⟨v, hv, h⟩ := (hmem r).mp hr
    exact ⟨v.2, ((matchWith_eq_some_iff _ _).mp h).1 ▸ hv⟩
  · intro name frames hv d
    rw [hmem, ← show check frames = checkCandidateDouble er frames q by rw [hcheck]]
    constructor
    · rintro ⟨⟨name', frames'⟩, hv', h⟩
      obtain ⟨hname, h⟩ := (matchWith_eq_some_iff _ _).mp h
      obtain rfl : name = name' := hname
      rwa [s.catalogue.frames_unique (mem_catalogue.mpr hv) (mem_catalogue.mpr hv')]
    · intro h
      exact ⟨(name, frames), hv, (matchWith_eq_some_iff _ _).mpr ⟨rfl, h⟩⟩

/-- The lengths of a candidate and the query are small if their product is. -/
theorem lengths_le {frames q : List UInt64} (hshare : sharesFrame frames q)
    (hsize : q.length * frames.length < 2 ^ 36) :
    frames.length ≤ 2 ^ 53 ∧ q.length ≤ 2 ^ 53 := by
  obtain ⟨x, hq, -, hf⟩ := hshare
  have hq := List.length_pos_of_mem hq
  have hf := List.length_pos_of_mem hf
  have h₁ := Nat.le_mul_of_pos_left frames.length hq
  have h₂ := Nat.le_mul_of_pos_right q.length hf
  omega

/-- In double precision a query reports what it reports with exact scores,
with scores that are right up to one part in 2^50, and 1 where the exact
score is 1. Only a video whose exact score is the threshold may be reported
in addition. -/
theorem double_reports_same (hs : Reachable s) (er : EqualRange UInt64) (o o' : HashOrder)
    {q : List UInt64} (hsize : ∀ v ∈ s.content, q.length * v.2.length < 2 ^ 36) :
    ∃ out outd, queryFrames er o s q [] = some (toInt out.length, out, s) ∧
      queryFramesDouble er o' s q [] = some (toInt outd.length, outd, s) ∧
      outd.Pairwise (fun a b => b.2 ≤ a.2) ∧ (outd.map Prod.fst).Nodup ∧
      (∀ name score, (name, score) ∈ out →
        ∃ d, (name, d) ∈ outd ∧ |d - score| ≤ score / 2 ^ 50 ∧ (score = 1 → d = 1)) ∧
      ∀ name d, (name, d) ∈ outd → ∃ score, |d - score| ≤ score / 2 ^ 50 ∧
        ((name, score) ∈ out ∨ score = threshold ∧
          ∃ frames, (name, frames) ∈ s.content ∧ checkCandidate er frames q = some score) := by
  obtain ⟨out, hquery, hnames, hmem⟩ := mem_answer hs er o q
  obtain ⟨outd, hqueryd, hsorted, hnodup, hnamesd, hmemd⟩ := mem_answerDouble hs er o' q
  refine ⟨out, outd, hquery, hqueryd, hsorted, hnodup, fun name score h => ?_, fun name d h => ?_⟩
  · obtain ⟨frames, hv⟩ := hnames _ h
    obtain ⟨hshare, hlen, hscore, hgt⟩ := (hmem name frames hv score).mp h
    obtain ⟨hbf, hcf⟩ := lengths_le hshare (hsize _ hv)
    obtain ⟨score', d, hscore', hd, hround⟩ := checkCandidate_rounded er hbf hcf
    obtain rfl : score = score' := Option.some.inj (hscore.symm.trans hscore')
    exact ⟨d, (hmemd name frames hv d).mpr ⟨hshare, hlen, hd, (hround.decides (hsize _ hv)).1 hgt⟩,
      hround.abs_sub_le, hround.one⟩
  · obtain ⟨frames, hv⟩ := hnamesd _ h
    obtain ⟨hshare, hlen, hd, hgt⟩ := (hmemd name frames hv d).mp h
    obtain ⟨hbf, hcf⟩ := lengths_le hshare (hsize _ hv)
    obtain ⟨score, d', hscore, hd', hround⟩ := checkCandidate_rounded er hbf hcf
    obtain rfl : d = d' := Option.some.inj (hd.symm.trans hd')
    refine ⟨score, hround.abs_sub_le, ?_⟩
    rcases lt_trichotomy score threshold with hlt | heq | hgt'
    · exact absurd ((hround.decides (hsize _ hv)).2 hlt) (not_lt.mpr (le_of_lt hgt))
    · exact .inr ⟨heq, frames, hv, hscore⟩
    · exact .inl ((hmem name frames hv score).mpr ⟨hshare, hlen, hscore, hgt'⟩)

theorem double_reports_same_single : ∃ s : VideoDB, s.content = [(ascii "v", [1, 2, 3])] ∧
    ∃ outd, queryFramesDouble default default s [1, 2, 3] [] = some (toInt outd.length, outd, s) ∧
      (ascii "v", 1) ∈ outd := by
  obtain ⟨s, hs, hcontent⟩ := addReached_single (ascii "v") [1, 2, 3]
  have hsize : ∀ v ∈ s.content, [(1 : UInt64), 2, 3].length * v.2.length < 2 ^ 36 := by
    rw [hcontent]
    intro v hv
    rw [List.mem_singleton.mp hv]
    decide
  obtain ⟨out, outd, hquery, hqueryd, -, -, hsame, -⟩ :=
    double_reports_same hs.reachable default default default hsize
  obtain ⟨out', hquery', hself, -⟩ := hs.reachable.inv.self_match default default
    (hcontent ▸ List.mem_singleton_self _) ⟨1, by decide, by decide⟩
  rw [hquery, Option.some.injEq, Prod.mk.injEq, Prod.mk.injEq] at hquery'
  obtain ⟨d, hd, -, hone⟩ := hsame _ _ (hquery'.2.1 ▸ hself)
  exact ⟨s, hcontent, outd, hqueryd, hone rfl ▸ hd⟩

end VideoDB

/-! ## A common part -/

/-- The rounded score of two videos of `a` and `b` frames that have `n`
frames in common. -/
def overlapScore (n a b : Nat) : ℚ := Double.mul (Double.div n a) (Double.div n b)

/-- All counted frames are matched completely. -/
theorem Overlap.checkCandidateDouble {cf bf : List UInt64} {a b n : Nat}
    (h : Overlap cf bf a b n) (er : EqualRange UInt64) (hbf : bf.length ≤ 2 ^ 53)
    (hcf : cf.length ≤ 2 ^ 53) :
    checkCandidateDouble er bf cf = some (overlapScore n cf.length bf.length) := by
  have hpos := h.pos
  have hc := h.inQuery
  have hb := h.inBase
  have htotc : markTotals (stripes cf.length bf.length a b n).cmark = (0, n) := markTotals_stripe hc
  have htotb : markTotals (stripes cf.length bf.length a b n).bmark = (0, n) := markTotals_stripe hb
  have hne : ¬ cf.length * bf.length = 0 := Nat.mul_ne_zero (by omega) (by omega)
  have hshare : ∀ len, n ≤ len → len ≤ 2 ^ 53 → partialScoreDouble 0 n len = Double.div n len := by
    intro len hle hlen
    have havg : 0 / n ≤ 18 := by rw [Nat.zero_div]; exact Nat.zero_le 18
    have hone : toDouble ((18 - (0 : Nat)) / 18) = 1 := by decide +kernel
    rw [partialScoreDouble_eq havg hle hlen, Nat.zero_div, hone, one_mul, toDouble_toDouble]
    rfl
  simp only [VideoMatch.Server.checkCandidateDouble, h.finalMarks er, sumMarks_eq, htotc, htotb,
    Option.bind_eq_bind, Option.bind_some, if_neg hne, if_neg hpos.ne', Nat.zero_div,
    hshare cf.length (by omega) hcf, hshare bf.length (by omega) hbf]
  rfl

theorem Overlap.lengths_pos {cf bf : List UInt64} {a b n : Nat} (h : Overlap cf bf a b n) :
    0 < cf.length ∧ 0 < bf.length := by
  have hpos := h.pos
  have hc := h.inQuery
  have hb := h.inBase
  omega

/-- The exact score and the rounded one. -/
theorem Overlap.scoreRounded {cf bf : List UInt64} {a b n : Nat} (h : Overlap cf bf a b n)
    (hbf : bf.length ≤ 2 ^ 53) (hcf : cf.length ≤ 2 ^ 53) :
    ScoreRounded bf cf ((n / cf.length : ℚ) * (n / bf.length))
      (overlapScore n cf.length bf.length) := by
  obtain ⟨score, d, hscore, hd, hround⟩ := checkCandidate_rounded default hbf hcf
  rw [h.checkCandidate, Option.some.injEq] at hscore
  rw [h.checkCandidateDouble default hbf hcf, Option.some.injEq] at hd
  rwa [hscore, hd]

/-- The product of the shares against the threshold. -/
theorem compare_shares {n a b : Nat} (ha : 0 < a) (hb : 0 < b) :
    (9 * (a * b) < 100 * n ^ 2 ↔ VideoDB.threshold < (n / a : ℚ) * (n / b)) ∧
      (100 * n ^ 2 < 9 * (a * b) ↔ (n / a : ℚ) * (n / b) < VideoDB.threshold) := by
  have ha' : (0 : ℚ) < a := by exact_mod_cast ha
  have hb' : (0 : ℚ) < b := by exact_mod_cast hb
  rw [div_mul_div_comm, VideoDB.threshold, div_lt_div_iff₀ (by norm_num) (by positivity),
    div_lt_div_iff₀ (by positivity) (by norm_num), ← sq, mul_comm ((n : ℚ) ^ 2)]
  constructor <;> exact_mod_cast Iff.rfl

namespace VideoDB

/-- A video with a part in common is reported, with the rounded product of
the shares of this part, exactly if it is a candidate and the rounded
product is above the rounded threshold. That is so if the exact product is
above 9/100, and it is not so if the exact product is below. -/
theorem overlap_reported {s : VideoDB} (hs : Reachable s) (er : EqualRange UInt64)
    (o : HashOrder) {name : Bytes} {frames q : List UInt64} {a b n : Nat}
    (hv : (name, frames) ∈ s.content) (hover : Overlap q frames a b n)
    (hsize : q.length * frames.length < 2 ^ 36) :
    (∃ out, queryFramesDouble er o s q [] = some (toInt out.length, out, s) ∧
      ∀ d, (name, d) ∈ out ↔ d = overlapScore n q.length frames.length ∧
        thresholdDouble < d ∧ sharesFrame frames q ∧
        ¬ lengthDiffers (distinctFrames frames).length (unorderedSet q).length) ∧
    |overlapScore n q.length frames.length - (n / q.length : ℚ) * (n / frames.length)|
      ≤ (n / q.length : ℚ) * (n / frames.length) / 2 ^ 50 ∧
    (9 * (q.length * frames.length) < 100 * n ^ 2 →
      thresholdDouble < overlapScore n q.length frames.length) ∧
    (100 * n ^ 2 < 9 * (q.length * frames.length) →
      overlapScore n q.length frames.length < thresholdDouble) := by
  obtain ⟨hq, hf⟩ := hover.lengths_pos
  have hbf : frames.length ≤ 2 ^ 53 := by
    have hle := Nat.le_mul_of_pos_left frames.length hq
    omega
  have hcf : q.length ≤ 2 ^ 53 := by
    have hle := Nat.le_mul_of_pos_right q.length hf
    omega
  have hround := hover.scoreRounded hbf hcf
  have hcompare := compare_shares (n := n) hq hf
  obtain ⟨habove, hbelow⟩ := hround.decides hsize
  refine ⟨?_, hround.abs_sub_le, fun h => habove (hcompare.1.mp h),
    fun h => hbelow (hcompare.2.mp h)⟩
  obtain ⟨out, hquery, -, -, -, hmem⟩ := mem_answerDouble hs er o q
  refine ⟨out, hquery, fun d => ?_⟩
  rw [hmem name frames hv d, hover.checkCandidateDouble er hbf hcf]
  constructor
  · rintro ⟨hshare, hlen, hd, hgt⟩
    exact ⟨(Option.some.inj hd).symm, hgt, hshare, hlen⟩
  · rintro ⟨rfl, hgt, hshare, hlen⟩
    exact ⟨hshare, hlen, rfl, hgt⟩

/-- Two of the three frames of a stored video. -/
theorem overlap_reported_single : ∃ s : VideoDB, s.content = [(ascii "v", [1, 2, 3])] ∧
    ∃ out, queryFramesDouble default default s [2, 3] [] = some (toInt out.length, out, s) ∧
      (ascii "v", overlapScore 2 2 3) ∈ out := by
  obtain ⟨s, hs, hcontent⟩ := addReached_single (ascii "v") [1, 2, 3]
  have honce : 2 ∉ [1] ++ [3] ++ ([] : List UInt64) := by decide
  have hover : Overlap [2, 3] [1, 2, 3] 0 1 2 := overlap_clip honce
  obtain ⟨⟨out, hquery, hiff⟩, -, habove, -⟩ := overlap_reported hs.reachable default default
    (hcontent ▸ List.mem_singleton_self _) hover (by decide)
  refine ⟨s, hcontent, out, hquery, (hiff _).mpr ⟨rfl, habove (by decide), by decide, ?_⟩⟩
  exact fun h => absurd h.1 (by decide)

/-- On the threshold itself the roundings decide: 9 common frames of 20 and
45 are reported, 3 of 10 and 10 are not. -/
example : thresholdDouble < overlapScore 9 20 45 ∧ ¬ thresholdDouble < overlapScore 3 10 10 := by
  decide +kernel

end VideoDB

end VideoMatch.Server
