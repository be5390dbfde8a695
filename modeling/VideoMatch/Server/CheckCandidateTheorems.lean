/-
VideoMatch.Server.CheckCandidateTheorems — the steps of the marking loop,
the sums behind the score, and a video against itself.

* `checkPair_cases`: two frames that differ too much end the walk, all
  others lower both marks to their difference.
* `sumMarks_eq`: the sums count the marks that are not 255.
* `checkCandidate_self`: a video has score 1 with itself. Frame 0 is
  always handled first and finds itself among its matches. No earlier
  extension can have marked base frame 0 (an extension from query frame 0
  only walks ahead), so the alignment (0, 0) is extended, and it never
  meets a difference: after frame 0 every mark is 0. This holds for every
  `EqualRange`.
-/
import VideoMatch.Server.DiffTheorems

namespace VideoMatch.Server

open VideoMatch.Cxx

/-! ## Updates of the marks -/

/-- A guarded assignment is a minimum. -/
theorem modify_min_eq (l : List Nat) {i d : Nat} (hi : i < l.length) :
    l.modify i (min d) = if d < l.get ⟨i, hi⟩ then l.set i d else l := by
  rw [List.modify_eq_set_getElem?, List.getElem?_eq_getElem hi]
  simp only [Option.map_eq_map, Option.map_some, Option.getD_some, List.get_eq_getElem]
  split
  · next hlt => rw [Nat.min_eq_left (Nat.le_of_lt hlt)]
  · next hge => rw [Nat.min_eq_right (Nat.le_of_not_lt hge), List.set_getElem_self]

namespace Marks

variable {nc nb : Nat}

/-- A guarded update of both sides: neither mark grows. -/
def lower (m : Marks nc nb) (c b d : Nat) : Marks nc nb :=
  ⟨m.cmark.modify c (min d), m.bmark.modify b (min d), by simp [m.hc], by simp [m.hb]⟩

theorem lowerC_eq (m : Marks nc nb) {i d : Nat} (hi : i < nc) (hd : d < 256) :
    m.lowerC i d = some ⟨m.cmark.modify i (min d), m.bmark, by simp [m.hc], m.hb⟩ := by
  have hlen : i < m.cmark.length := m.hc.symm ▸ hi
  have hmod := modify_min_eq m.cmark (d := d) hlen
  rw [lowerC, List.getElem?_eq_getElem hlen, Option.bind_eq_bind, Option.bind_some]
  rw [List.get_eq_getElem] at hmod
  split
  · next hlt =>
      rw [if_pos hlt] at hmod
      rw [setC, if_pos hi]
      exact congrArg some (Marks.ext (by simp [hmod, Nat.mod_eq_of_lt hd]) rfl)
  · next hge =>
      rw [if_neg hge] at hmod
      exact congrArg some (Marks.ext hmod.symm rfl)

theorem lowerB_eq (m : Marks nc nb) {i d : Nat} (hi : i < nb) (hd : d < 256) :
    m.lowerB i d = some ⟨m.cmark, m.bmark.modify i (min d), m.hc, by simp [m.hb]⟩ := by
  have hlen : i < m.bmark.length := m.hb.symm ▸ hi
  have hmod := modify_min_eq m.bmark (d := d) hlen
  rw [lowerB, List.getElem?_eq_getElem hlen, Option.bind_eq_bind, Option.bind_some]
  rw [List.get_eq_getElem] at hmod
  split
  · next hlt =>
      rw [if_pos hlt] at hmod
      rw [setB, if_pos hi]
      exact congrArg some (Marks.ext rfl (by simp [hmod, Nat.mod_eq_of_lt hd]))
  · next hge =>
      rw [if_neg hge] at hmod
      exact congrArg some (Marks.ext rfl hmod.symm)

/-- `cmark[i] = 0`. -/
def clearC (m : Marks nc nb) (i : Nat) : Marks nc nb :=
  ⟨m.cmark.set i 0, m.bmark, by simp [m.hc], m.hb⟩

/-- `bmark[i] = 0`. -/
def clearB (m : Marks nc nb) (i : Nat) : Marks nc nb :=
  ⟨m.cmark, m.bmark.set i 0, m.hc, by simp [m.hb]⟩

theorem setC_zero (m : Marks nc nb) {i : Nat} (hi : i < nc) : m.setC i 0 = some (m.clearC i) := by
  rw [setC, if_pos hi]; rfl

theorem setB_zero (m : Marks nc nb) {i : Nat} (hi : i < nb) : m.setB i 0 = some (m.clearB i) := by
  rw [setB, if_pos hi]; rfl

end Marks

/-! ## One pair -/

/-- Either step of `check_range`: it stops at two frames that differ too
much, or lowers both marks to the difference. -/
theorem checkPair_cases {cf bf : List UInt64} (m : Marks cf.length bf.length) {c b : Nat}
    {x y : UInt64} (hx : cf[c]? = some x) (hy : bf[b]? = some y) :
    (STOP_CHECK_BITS < diffBits x y ∧ checkPair cf bf m c b = some (.brk m)) ∨
    (diffBits x y ≤ STOP_CHECK_BITS ∧
      checkPair cf bf m c b = some (.next (m.lower c b (diffBits x y)))) := by
  have hd : diffBits x y < 256 := by have := diffBits_le x y; omega
  have hc : c < cf.length := (List.getElem?_eq_some_iff.mp hx).1
  have hb : b < bf.length := (List.getElem?_eq_some_iff.mp hy).1
  simp only [checkPair, hx, hy, Option.bind_eq_bind, Option.bind_some, gt_iff_lt]
  split
  · next h => exact .inl ⟨h, rfl⟩
  · next h =>
      refine .inr ⟨Nat.le_of_not_lt h, ?_⟩
      simp only [m.lowerC_eq hc hd, Option.bind_some]
      rw [Marks.lowerB_eq _ hb hd]
      rfl

/-! ## Sums of marks -/

theorem cutRange_eq (n : Nat) : cutRange n = List.range n := by
  rw [cutRange, List.filter_eq_self]
  intro i hi
  rw [List.mem_range] at hi
  have hlt : (i : ℚ) < n := by exact_mod_cast hi
  simp only [mul_zero, CUT_RATIO, zero_mul, zero_div, Nat.floor_zero, Nat.zero_le, sub_zero,
    mul_one, true_and, decide_eq_true_eq]
  linarith

/-- The sum of the marks that are not 255, and their number. -/
def markTotals (mark : List Nat) : Nat × Nat :=
  ((mark.filter (· ≠ 255)).sum, (mark.filter (· ≠ 255)).length)

theorem sumMarks_eq (mark : List Nat) : sumMarks mark = some (markTotals mark) := by
  have hfold : ∀ (l : List Nat) (st : Nat × Nat),
      l.foldlM (fun (st : Nat × Nat) d =>
        if d ≠ 255 then some (st.1 + d, st.2 + 1) else some st) st
        = some (st.1 + (markTotals l).1, st.2 + (markTotals l).2) := by
    intro l
    induction l with
    | nil => intro st; rfl
    | cons d l ih =>
        intro st
        rw [List.foldlM_cons]
        by_cases hd : d = 255
        · simpa [hd, markTotals] using ih st
        · simp only [ne_eq, hd, not_false_eq_true, if_true, Option.bind_eq_bind, Option.bind_some,
            ih, markTotals, decide_true, List.filter_cons_of_pos, List.sum_cons, List.length_cons]
          congr 2 <;> omega
  rw [sumMarks, cutRange_eq]
  simp only [Option.bind_eq_bind]
  rw [foldlM_range_getElem?, hfold]
  simp

theorem markTotals_snd_le (mark : List Nat) : (markTotals mark).2 ≤ mark.length :=
  List.length_filter_le _ _

/-- A partial score is a ratio as long as the average difference is at most
18 and no more frames are counted than there are. -/
theorem partialScore_bounds {total cnt n : Nat} (havg : total / cnt ≤ 18) (hcnt : cnt ≤ n) :
    0 ≤ partialScore total cnt n ∧ partialScore total cnt n ≤ 1 := by
  have havg' : ((total / cnt : Nat) : ℚ) ≤ 18 := by exact_mod_cast havg
  have hnn : (0 : ℚ) ≤ (total / cnt : Nat) := Nat.cast_nonneg _
  have hshare : (0 : ℚ) ≤ (cnt : ℚ) / n ∧ (cnt : ℚ) / n ≤ 1 :=
    ⟨by positivity, div_le_one_of_le₀ (by exact_mod_cast hcnt) (Nat.cast_nonneg n)⟩
  have hclose : (0 : ℚ) ≤ (18 - (total / cnt : Nat)) / 18 ∧
      (18 - ((total / cnt : Nat) : ℚ)) / 18 ≤ 1 :=
    ⟨div_nonneg (by linarith) (by norm_num), by rw [div_le_one (by norm_num)]; linarith⟩
  have heq : partialScore total cnt n = (18 - (total / cnt : Nat)) / 18 * ((cnt : ℚ) / n) := by
    simp [partialScore, CUT_RATIO]
  rw [heq]
  exact ⟨mul_nonneg hclose.1 hshare.1, mul_le_one₀ hclose.2 hshare.1 hshare.2⟩

/-! ## A video against itself -/

section Self

/-- Every frame of both sides is completely matched. -/
def AllZero {nc nb : Nat} (m : Marks nc nb) : Prop :=
  (∀ k d : Nat, m.cmark[k]? = some d → d = 0) ∧ (∀ k d : Nat, m.bmark[k]? = some d → d = 0)

theorem AllZero.cmark_zero {nc nb : Nat} {m : Marks nc nb} (h : AllZero m) {i : Nat}
    (hi : i < nc) : m.cmark[i]? = some 0 := by
  have hsome := List.getElem?_eq_getElem (m.hc.symm ▸ hi : i < m.cmark.length)
  have hzero := h.1 i _ hsome
  rwa [hzero] at hsome

theorem zero_of_set {l : List Nat} (h : ∀ k d : Nat, l[k]? = some d → d = 0) (i : Nat) :
    ∀ k e : Nat, (l.set i 0)[k]? = some e → e = 0 := by
  intro k e he
  rw [List.getElem?_set] at he
  split at he
  · split at he
    · exact (Option.some.inj he).symm
    · cases he
  · exact h k e he

variable {f : List UInt64}

/-- Once every frame is completely matched, the loop skips the rest. -/
theorem checkFrame_of_allZero (er : EqualRange UInt64) {m : Marks f.length f.length}
    (hm : AllZero m) (skipped : Nat) {i : Nat} (hi : i < f.length) :
    checkFrame f f er (m, skipped) i = some (m, skipped) := by
  simp [checkFrame, hm.cmark_zero hi, GOOD_BITS]

/-- Nor does another alignment of frame 0 walk on. -/
theorem visitMatch_of_allZero {m : Marks f.length f.length} (hm : AllZero m) {p : Nat}
    (hp : p < f.length) : ∃ m', visitMatch f f 0 m p = some m' ∧ AllZero m' := by
  have hget : m.bmark[p]? = some (m.bmark.get ⟨p, m.hb.symm ▸ hp⟩) := List.getElem?_eq_getElem _
  have hzero := hm.2 p _ hget
  refine ⟨m.clearB p, ?_, hm.1, zero_of_set hm.2 p⟩
  simp only [visitMatch, hget, hzero, m.setB_zero hp, Option.bind_eq_bind, Option.bind_some]
  rfl

/-- An alignment of query frame 0 with a base frame other than 0 leaves
base frame 0 unmatched: the walk ahead only meets later frames. -/
theorem visitMatch_ne_zero {m : Marks f.length f.length} {p : Nat} (hp : p < f.length)
    (hne : p ≠ 0) (hc : m.cmark[0]? = some 0) (hb : m.bmark[0]? = some 255) :
    ∃ m', visitMatch f f 0 m p = some m' ∧ m'.cmark[0]? = some 0 ∧ m'.bmark[0]? = some 255 := by
  have hget : m.bmark[p]? = some (m.bmark.get ⟨p, m.hb.symm ▸ hp⟩) := List.getElem?_eq_getElem _
  have hb' : (m.clearB p).bmark[0]? = some 255 := by
    rw [Marks.clearB, List.getElem?_set_ne hne]; exact hb
  simp only [visitMatch, hget, m.setB_zero hp, Option.bind_eq_bind, Option.bind_some]
  split
  · exact ⟨_, rfl, hc, hb'⟩
  · obtain ⟨m₁, h₁, hP⟩ := forBreak_total
      (P := fun m : Marks f.length f.length => m.cmark[0]? = some 0 ∧ m.bmark[0]? = some 255)
      (f := fun m j => checkPair f f m (0 + j) (p + j))
      (List.range' 1 (min (f.length - 0) (f.length - p) - 1)) (m.clearB p)
      (by
        intro m j hj hm
        rw [List.mem_range'_1] at hj
        have hx : f[0 + j]? = some (f.get ⟨0 + j, by omega⟩) := List.getElem?_eq_getElem _
        have hy : f[p + j]? = some (f.get ⟨p + j, by omega⟩) := List.getElem?_eq_getElem _
        rcases checkPair_cases m hx hy with ⟨-, h⟩ | ⟨-, h⟩
        · exact ⟨_, h, hm⟩
        · refine ⟨_, h, ?_, ?_⟩
          · exact (List.getElem?_modify_ne _ _ (by omega)).trans hm.1
          · exact (List.getElem?_modify_ne _ _ (by omega)).trans hm.2)
      ⟨hc, hb'⟩
    refine ⟨m₁, ?_, hP⟩
    rw [checkRange, h₁]
    simp [forBreak]

/-- Both marks of frame `k` are 0. -/
def ZeroAt (m : Marks f.length f.length) (k : Nat) : Prop :=
  m.cmark[k]? = some 0 ∧ m.bmark[k]? = some 0

theorem getElem?_modify_min_zero {l : List Nat} {j k : Nat} (hj : j < l.length)
    (hother : k ≠ j → l[k]? = some 0) : (l.modify j (min 0))[k]? = some 0 := by
  rw [List.getElem?_modify]
  by_cases hkj : k = j
  · subst hkj
    simp [hj]
  · simp [hother hkj]

/-- A frame compared with itself has its marks set to 0; the others are
unchanged. -/
theorem checkPair_same (m : Marks f.length f.length) {j : Nat} (hj : j < f.length) :
    ∃ m', checkPair f f m j j = some (.next m') ∧
      ∀ k, (k ≠ j → ZeroAt m k) → ZeroAt m' k := by
  have hx : f[j]? = some (f.get ⟨j, hj⟩) := List.getElem?_eq_getElem _
  have hstep := checkPair_cases m hx hx
  rw [diffBits_self] at hstep
  rcases hstep with ⟨hlt, -⟩ | ⟨-, h⟩
  · exact absurd hlt (Nat.not_lt_zero _)
  · refine ⟨_, h, fun k hk => ⟨?_, ?_⟩⟩
    · exact getElem?_modify_min_zero (m.hc.symm ▸ hj) fun hkj => (hk hkj).1
    · exact getElem?_modify_min_zero (m.hb.symm ▸ hj) fun hkj => (hk hkj).2

/-- The walk ahead from the start of the video meets every frame. -/
theorem walkAhead_zero {m : Marks f.length f.length} (hm : ZeroAt m 0) :
    ∃ m', forBreak (fun m j => checkPair f f m (0 + j) (0 + j))
      (List.range' 1 (min (f.length - 0) (f.length - 0) - 1)) m = some m' ∧
      ∀ k < f.length, ZeroAt m' k := by
  obtain ⟨m', h', hP⟩ := forBreak_all
    (P := fun done (m : Marks f.length f.length) => ∀ k ∈ 0 :: done, ZeroAt m k)
    (f := fun m j => checkPair f f m (0 + j) (0 + j))
    (List.range' 1 (min (f.length - 0) (f.length - 0) - 1)) m
    (by
      intro done j rest m hsplit hm
      have hj : j ∈ List.range' 1 (min (f.length - 0) (f.length - 0) - 1) := by
        rw [hsplit]; simp
      rw [List.mem_range'_1] at hj
      obtain ⟨m', h', hzero⟩ := checkPair_same m (j := 0 + j) (by omega)
      refine ⟨m', h', fun k hk => hzero k fun hkj => hm k ?_⟩
      rw [Nat.zero_add] at hkj
      simp only [List.mem_cons, List.mem_append, List.not_mem_nil, or_false] at hk ⊢
      tauto)
    (fun k hk => by
      rw [List.mem_singleton] at hk
      exact hk ▸ hm)
  refine ⟨m', h', fun k hk => hP k ?_⟩
  rw [List.mem_cons, List.mem_range'_1]
  omega

theorem allZero_of_zeroAt {m : Marks f.length f.length} (hm : ∀ k < f.length, ZeroAt m k) :
    AllZero m := by
  constructor
  · intro k d hd
    have hk : k < f.length := m.hc ▸ (List.getElem?_eq_some_iff.mp hd).1
    rw [(hm k hk).1] at hd
    exact (Option.some.inj hd).symm
  · intro k d hd
    have hk : k < f.length := m.hb ▸ (List.getElem?_eq_some_iff.mp hd).1
    rw [(hm k hk).2] at hd
    exact (Option.some.inj hd).symm

/-- The alignment of a video with itself extends to its end. -/
theorem visitMatch_zero {m : Marks f.length f.length} (hpos : 0 < f.length)
    (hc : m.cmark[0]? = some 0) (hb : m.bmark[0]? = some 255) :
    ∃ m', visitMatch f f 0 m 0 = some m' ∧ AllZero m' := by
  have hb' : (m.clearB 0).bmark[0]? = some 0 := by
    rw [Marks.clearB, List.getElem?_set_self (m.hb.symm ▸ hpos)]
  obtain ⟨m', h', hzero⟩ := walkAhead_zero (m := m.clearB 0) ⟨hc, hb'⟩
  refine ⟨m', ?_, allZero_of_zeroAt hzero⟩
  simp only [visitMatch, hb, m.setB_zero hpos, Option.bind_eq_bind, Option.bind_some]
  rw [if_neg (by decide), checkRange, h']
  simp [forBreak]

/-- Frame 0 alone completes the marking, whatever the order in which its
matches are visited. -/
theorem checkFrame_zero (er : EqualRange UInt64) (hpos : 0 < f.length) :
    ∃ m, checkFrame f f er (Marks.init _ _, 0) 0 = some (m, 0) ∧ AllZero m := by
  have hget : f[0]? = some (f.get ⟨0, hpos⟩) := List.getElem?_eq_getElem hpos
  generalize f.get ⟨0, hpos⟩ = x at hget
  have hmark : (Marks.init f.length f.length).cmark[0]? = some 255 := by simp [Marks.init, hpos]
  obtain ⟨m, hm, hP⟩ := foldlM_all
    (P := fun done (m : Marks f.length f.length) => m.cmark[0]? = some 0 ∧
      (AllZero m ∨ (0 ∉ done ∧ m.bmark[0]? = some 255)))
    (f := visitMatch f f 0) (er.range f x) ((Marks.init _ _).clearC 0)
    (by
      intro done p rest m hsplit hm
      have hp : f[p]? = some x := er.mem_range.mp (by rw [hsplit]; simp)
      have hplt : p < f.length := (List.getElem?_eq_some_iff.mp hp).1
      obtain ⟨hc, hall | ⟨hnot, hb⟩⟩ := hm
      · obtain ⟨m', h', hall'⟩ := visitMatch_of_allZero hall hplt
        exact ⟨m', h', hall'.cmark_zero hpos, .inl hall'⟩
      by_cases hp0 : p = 0
      · subst hp0
        obtain ⟨m', h', hall'⟩ := visitMatch_zero hpos hc hb
        exact ⟨m', h', hall'.cmark_zero hpos, .inl hall'⟩
      · obtain ⟨m', h', hc', hb'⟩ := visitMatch_ne_zero hplt hp0 hc hb
        exact ⟨m', h', hc', .inr ⟨by simp [hnot, Ne.symm hp0], hb'⟩⟩)
    ⟨by simp [Marks.clearC, Marks.init, hpos], .inr ⟨by simp, by
      simp [Marks.clearC, Marks.init, hpos]⟩⟩
  have hmem : 0 ∈ er.range f x := er.mem_range.mpr hget
  have hall : AllZero m := hP.2.resolve_right (fun h => h.1 hmem)
  refine ⟨m, ?_, hall⟩
  have hcount : er.count f x > 0 := List.length_pos_of_mem hmem
  simp only [checkFrame, hmark, hget, Option.bind_eq_bind, Option.bind_some]
  rw [if_neg (by decide), if_pos hcount, Marks.setC_zero _ hpos, Option.bind_some, hm]
  rfl

/-- Against itself, a video with at least one frame scores exactly 1. -/
theorem checkCandidate_self (er : EqualRange UInt64) (hpos : 0 < f.length) :
    checkCandidate er f f = some 1 := by
  obtain ⟨m, hm, hall⟩ := checkFrame_zero er hpos
  have hfinal : finalMarks f f er = some m := by
    obtain ⟨n, hn⟩ : ∃ n, f.length = n + 1 := ⟨f.length - 1, by omega⟩
    have hrest := foldlM_total (P := fun st : Marks f.length f.length × Nat => st = (m, 0))
      (f := checkFrame f f er) ((List.range n).map Nat.succ) (m, 0)
      (fun st i hi hst => by
        obtain ⟨k, hk, rfl⟩ := List.mem_map.mp hi
        rw [List.mem_range] at hk
        exact ⟨(m, 0), by rw [hst]; exact checkFrame_of_allZero er hall 0 (by omega), rfl⟩) rfl
    obtain ⟨st, hst, rfl⟩ := hrest
    have hrange : List.range f.length = 0 :: (List.range n).map Nat.succ := by
      rw [hn, List.range_succ_eq_map]
    simp [finalMarks, hrange, hm, hst]
  -- all marks are 0, so no difference is summed and every frame counts
  have htot : ∀ mark : List Nat, mark.length = f.length →
      (∀ k d : Nat, mark[k]? = some d → d = 0) → markTotals mark = (0, f.length) := by
    intro mark hlen hzero
    have hrep : mark = List.replicate f.length 0 := by
      refine List.eq_replicate_iff.mpr ⟨hlen, fun d hd => ?_⟩
      obtain ⟨k, hk⟩ := List.mem_iff_getElem?.mp hd
      exact hzero k d hk
    rw [hrep]
    simp [markTotals]
  have hne : f.length * f.length ≠ 0 := by positivity
  have hone : partialScore 0 f.length f.length = 1 := by
    have : (f.length : ℚ) ≠ 0 := by positivity
    simp [partialScore, CUT_RATIO, this]
  simp only [checkCandidate, hfinal, sumMarks_eq, htot _ m.hc hall.1, htot _ m.hb hall.2,
    Option.bind_eq_bind, Option.bind_some]
  rw [if_neg hne]
  simp [hpos.ne', hone]

end Self

end VideoMatch.Server
