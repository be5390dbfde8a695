/-
VideoMatch.Server.SimilarityTheorems — what a reported score says.

* `score_le_near`: a score is at most the product of the shares of frames
  that have a frame of the other side with a difference of at most 28. So a
  reported match has more than nine in a hundred such frames on both sides
  (`reported_similar`).
* `score_of_noisyCopy`: a query of the same length and with the same first
  frame, all of whose frames differ from the base frame at the same place
  by at most `d`, scores at least `((18 - d) / 18)²`. For `d = 12` this is
  1/9, just above the threshold, so such a copy is always reported
  (`noisy_copy_reported`).

Both hold for every store the server can build and every order of the
walks. Scores are exact, and a difference is what `diff_bits` returns: a
byte in which all bits differ does not count.
-/
import VideoMatch.Server.OverlapTheorems

namespace VideoMatch.Server

open VideoMatch.Cxx

/-! ## An upper bound -/

theorem diffBits_comm (x y : UInt64) : diffBits x y = diffBits y x := by
  rw [diffBits, diffBits, UInt64.xor_comm]

/-- The number of frames of `l` for which `diff_bits` is at most 28 with some
frame of `l'`, so that a walk can match them. -/
def nearCount (l l' : List UInt64) : Nat :=
  l.countP fun x => ∃ y ∈ l', diffBits x y ≤ STOP_CHECK_BITS

theorem nearCount_le (l l' : List UInt64) : nearCount l l' ≤ l.length := List.countP_le_length

/-- Of two lists of one length, the one with the weaker test counts more. -/
theorem countP_le_of_get {α β : Type*} {p : α → Bool} {q : β → Bool} :
    ∀ {l : List α} {l' : List β}, l.length = l'.length →
      (∀ (i : Nat) a b, l[i]? = some a → l'[i]? = some b → p a → q b) →
      l.countP p ≤ l'.countP q := by
  intro l
  induction l with
  | nil => intro l' _ _; simp
  | cons a l ih =>
      intro l' hlen h
      obtain ⟨b, l', rfl⟩ := List.exists_cons_of_length_eq_add_one hlen.symm
      have hrest : l.countP p ≤ l'.countP q :=
        ih (Nat.succ.inj hlen) fun i a b ha hb =>
          h (i + 1) a b (by simpa using ha) (by simpa using hb)
      have hhead := h 0 a b rfl rfl
      rw [List.countP_cons, List.countP_cons]
      by_cases hp : p a = true
      · rw [if_pos hp, if_pos (hhead hp)]
        omega
      · rw [if_neg hp]
        omega

/-- No more frames are marked than have a match within reach. -/
theorem Witnessed.marked_le {cf bf : List UInt64} {m : Marks cf.length bf.length}
    (h : Witnessed cf bf m) :
    (markTotals m.cmark).2 ≤ nearCount cf bf ∧ (markTotals m.bmark).2 ≤ nearCount bf cf := by
  have hcount : ∀ mark : List Nat, (markTotals mark).2 = mark.countP (· ≠ 255) :=
    fun mark => List.countP_eq_length_filter.symm
  rw [hcount, hcount]
  constructor
  · refine countP_le_of_get m.hc fun i d x hd hx hne => ?_
    rcases h.cmark i d hd with h255 | ⟨hsmall, j, x', y, hx', hy, hdiff⟩
    · simp [h255] at hne
    · rw [hx, Option.some.injEq] at hx'
      subst hx'
      exact decide_eq_true ⟨y, List.mem_of_getElem? hy, hdiff ▸ hsmall⟩
  · refine countP_le_of_get m.hb fun j d y hd hy hne => ?_
    rcases h.bmark j d hd with h255 | ⟨hsmall, i, x, y', hx, hy', hdiff⟩
    · simp [h255] at hne
    · rw [hy, Option.some.injEq] at hy'
      subst hy'
      refine decide_eq_true ⟨x, List.mem_of_getElem? hx, ?_⟩
      rw [diffBits_comm, ← hdiff]
      exact hsmall

theorem partialScore_le (total cnt n : Nat) : partialScore total cnt n ≤ cnt / n := by
  have hclose : (18 - ((total / cnt : Nat) : ℚ)) / 18 ≤ 1 := by
    have hnn : (0 : ℚ) ≤ (total / cnt : Nat) := Nat.cast_nonneg _
    rw [div_le_one (by norm_num)]
    linarith
  have hshare : (0 : ℚ) ≤ (cnt : ℚ) / n := by positivity
  rw [partialScore, CUT_RATIO, mul_zero, sub_zero, mul_one]
  exact mul_le_of_le_one_left hshare hclose

/-- The score of two videos with a common hash is at most the product of the
shares of frames within reach. -/
theorem score_le_near (er : EqualRange UInt64) {bf cf : List UInt64} {x : UInt64} (hcf : x ∈ cf)
    (hbf : x ∈ bf) {score : ℚ} (hscore : checkCandidate er bf cf = some score) :
    score ≤ (nearCount cf bf / cf.length : ℚ) * (nearCount bf cf / bf.length) := by
  obtain ⟨-, -, m, hm, ⟨totc, cntc, hsumc, hposc⟩, totb, cntb, hsumb, hposb⟩ :=
    countsMarks_of_mem er hcf hbf
  obtain ⟨m', hm', hwit, -⟩ := finalMarks_exact cf bf er
  rw [hm, Option.some.injEq] at hm'
  subst hm'
  obtain ⟨hnearc, hnearb⟩ := hwit.marked_le
  rw [sumMarks_eq, Option.some.injEq] at hsumc hsumb
  rw [hsumc] at hnearc
  rw [hsumb] at hnearb
  have hbounds : (0 : ℚ) ≤ (nearCount cf bf / cf.length : ℚ) * (nearCount bf cf / bf.length) := by
    positivity
  simp only [checkCandidate, hm, sumMarks_eq, hsumc, hsumb, Option.bind_eq_bind, Option.bind_some,
    if_neg hposc.ne', if_neg hposb.ne'] at hscore
  split at hscore
  · cases hscore
    exact hbounds
  split at hscore
  · cases hscore
    exact hbounds
  next havgc =>
  split at hscore
  · cases hscore
    exact hbounds
  next havgb =>
  cases hscore
  have hlec : (cntc : ℚ) / cf.length ≤ nearCount cf bf / cf.length := by gcongr
  have hleb : (cntb : ℚ) / bf.length ≤ nearCount bf cf / bf.length := by gcongr
  have hcnt : cntb ≤ bf.length := hnearb.trans (nearCount_le bf cf)
  have hnn := (partialScore_bounds (Nat.le_of_not_lt havgb) hcnt).1
  have hposc' : (0 : ℚ) ≤ nearCount cf bf / cf.length := by positivity
  exact mul_le_mul ((partialScore_le _ _ _).trans hlec) ((partialScore_le _ _ _).trans hleb) hnn
    hposc'

/-! ## Noisy copies -/

/-- A query of the length of the base, with the same first frame, for whose
frames `diff_bits` is at most `d` with those at the same place. -/
structure NoisyCopy (cf bf : List UInt64) (d : Nat) : Prop where
  pos : 0 < cf.length
  length : cf.length = bf.length
  first : cf[0]? = bf[0]?
  near : ∀ (k : Nat) x y, cf[k]? = some x → bf[k]? = some y → diffBits x y ≤ d

/-- Every mark is at most `d`. -/
structure Below {nc nb : Nat} (d : Nat) (m : Marks nc nb) : Prop where
  cmark : ∀ k e : Nat, m.cmark[k]? = some e → e ≤ d
  bmark : ∀ k e : Nat, m.bmark[k]? = some e → e ≤ d

section Below

variable {nc nb d : Nat} {m : Marks nc nb}

theorem le_of_modify_min {l : List Nat} (h : ∀ k e : Nat, l[k]? = some e → e ≤ d) (i v : Nat) :
    ∀ k e : Nat, (l.modify i (min v))[k]? = some e → e ≤ d := by
  intro k e he
  rw [List.getElem?_modify, Option.map_eq_map, Option.map_eq_some_iff] at he
  obtain ⟨e', he', rfl⟩ := he
  have hle := h k e' he'
  split <;> omega

theorem le_of_set {l : List Nat} (h : ∀ k e : Nat, l[k]? = some e → e ≤ d) (i : Nat) {v : Nat}
    (hv : v ≤ d) : ∀ k e : Nat, (l.set i v)[k]? = some e → e ≤ d := by
  intro k e he
  rcases getElem?_set_cases he with ⟨-, rfl⟩ | ⟨-, hold⟩
  · exact hv
  · exact h k e hold

theorem Below.lower (h : Below d m) (c b v : Nat) : Below d (m.lower c b v) :=
  ⟨le_of_modify_min h.cmark c v, le_of_modify_min h.bmark b v⟩

theorem Below.clearC (h : Below d m) (i : Nat) : Below d (m.clearC i) :=
  ⟨le_of_set h.cmark i (Nat.zero_le d), h.bmark⟩

theorem Below.clearB (h : Below d m) (i : Nat) : Below d (m.clearB i) :=
  ⟨h.cmark, le_of_set h.bmark i (Nat.zero_le d)⟩

/-- Both unguarded stores of a match of least difference. -/
theorem Below.storeNearest (h : Below d m) {i p v : Nat} (hi : i < nc) (hp : p < nb) (hv : v ≤ d)
    (hbyte : v < 256) : ∃ m', ((m.lowerB p v).bind fun m => (m.setB p v).bind fun m => m.setC i v)
      = some m' ∧ Below d m' := by
  rw [m.lowerB_eq hp hbyte, Option.bind_some, Marks.setB, if_pos hp, Option.bind_some, Marks.setC,
    if_pos hi]
  refine ⟨_, rfl, ?_, ?_⟩
  · simp only [Nat.mod_eq_of_lt hbyte]
    exact le_of_set h.cmark i hv
  · simp only [Nat.mod_eq_of_lt hbyte]
    exact le_of_set (le_of_modify_min h.bmark p v) p hv

end Below

section NoisyCopies

variable {cf bf : List UInt64} {d : Nat} {m : Marks cf.length bf.length}

theorem Below.checkPair (h : Below d m) {c b : Nat} (hc : c < cf.length) (hb : b < bf.length) :
    ∃ r, checkPair cf bf m c b = some r ∧ Below d r.state := by
  rcases checkPair_cases m (List.getElem?_eq_getElem hc) (List.getElem?_eq_getElem hb)
    with ⟨-, hstep⟩ | ⟨-, hstep⟩
  · exact ⟨_, hstep, h⟩
  · exact ⟨_, hstep, h.lower _ _ _⟩

theorem Below.checkRange (h : Below d m) {c b : Nat} (hc : c < cf.length) (hb : b < bf.length) :
    ∃ m', checkRange cf bf c b m = some m' ∧ Below d m' := by
  obtain ⟨m₁, hm₁, h₁⟩ := forBreak_total (P := Below d)
    (f := fun m j => VideoMatch.Server.checkPair cf bf m (c + j) (b + j))
    (List.range' 1 (min (cf.length - c) (bf.length - b) - 1)) m
    (fun m j hj hm => by
      rw [List.mem_range'_1] at hj
      exact hm.checkPair (by omega) (by omega)) h
  obtain ⟨m₂, hm₂, h₂⟩ := forBreak_total (P := Below d)
    (f := fun m j => VideoMatch.Server.checkPair cf bf m (c - j) (b - j))
    (List.range' 1 (min c b)) m₁
    (fun m j _ hm => hm.checkPair (by omega) (by omega)) h₁
  exact ⟨m₂, by rw [VideoMatch.Server.checkRange, hm₁]; exact hm₂, h₂⟩

theorem Below.visitMatch (h : Below d m) {i p : Nat} (hi : i < cf.length) (hp : p < bf.length) :
    ∃ m', visitMatch cf bf i m p = some m' ∧ Below d m' := by
  obtain ⟨old, hold⟩ := m.bmark_get hp
  simp only [VideoMatch.Server.visitMatch, hold, m.setB_zero hp, Option.bind_eq_bind,
    Option.bind_some]
  split
  · exact ⟨_, rfl, h.clearB p⟩
  · exact (h.clearB p).checkRange hi hp

/-- Small marks stay small: what is stored without a comparison is 0 or a
least difference, which is at most 12. -/
theorem Below.checkFrame (h : Below d m) (hd : CHECK_BITS ≤ d) (er : EqualRange UInt64)
    (skipped : Nat) {i : Nat} (hi : i < cf.length) :
    ∃ st, checkFrame cf bf er (m, skipped) i = some st ∧ Below d st.1 := by
  obtain ⟨mark, hmark⟩ := m.cmark_get hi
  have hx : cf[i]? = some (cf.get ⟨i, hi⟩) := List.getElem?_eq_getElem hi
  generalize cf.get ⟨i, hi⟩ = x at hx
  obtain ⟨found, hfound, hfirst⟩ := minDiffBits_firstMin x bf 0
  simp only [VideoMatch.Server.checkFrame, hmark, hx, hfound, m.setC_zero hi, Option.bind_eq_bind,
    Option.bind_some]
  split
  · exact ⟨_, rfl, h⟩
  split
  · obtain ⟨m', hm', h'⟩ := foldlM_total (P := Below d)
      (f := VideoMatch.Server.visitMatch cf bf i) (er.range bf x) (m.clearC i)
      (fun m p hp hm => hm.visitMatch hi
        (List.getElem?_eq_some_iff.mp (er.mem_range.mp hp)).1) (h.clearC i)
    exact ⟨_, by rw [hm']; rfl, h'⟩
  split
  · exact ⟨_, rfl, h⟩
  split
  · exact ⟨_, rfl, h⟩
  next hnear =>
    have h12 : CHECK_BITS = 12 := rfl
    have hat := hfirst.attained (by omega)
    rw [List.getElem?_map, Option.map_eq_some_iff] at hat
    obtain ⟨y, hy, -⟩ := hat
    have hp := (List.getElem?_eq_some_iff.mp hy).1
    obtain ⟨m₁, hm₁, h₁⟩ := h.storeNearest (v := found.1) hi hp (by omega) (by omega)
    obtain ⟨m₂, hm₂, h₂⟩ := h₁.checkRange hi hp
    refine ⟨(m₂, 0), ?_, h₂⟩
    rw [Option.bind_eq_some_iff] at hm₁
    obtain ⟨ma, hma, hm₁⟩ := hm₁
    rw [Option.bind_eq_some_iff] at hm₁
    obtain ⟨mb, hmb, hm₁⟩ := hm₁
    simp [hma, hmb, hm₁, hm₂]

/-- Both marks at the place `k` are at most `d`. -/
def SmallAt {nc nb : Nat} (d : Nat) (m : Marks nc nb) (k : Nat) : Prop :=
  (∃ e : Nat, m.cmark[k]? = some e ∧ e ≤ d) ∧ ∃ e : Nat, m.bmark[k]? = some e ∧ e ≤ d

theorem exists_le_of_modify_min {l : List Nat} {j k v : Nat} (hv : v ≤ d) (hj : j < l.length)
    (hold : k ≠ j → ∃ e : Nat, l[k]? = some e ∧ e ≤ d) :
    ∃ e : Nat, (l.modify j (min v))[k]? = some e ∧ e ≤ d := by
  by_cases hkj : k = j
  · subst hkj
    exact ⟨min v l[k], by simp [hj], (Nat.min_le_left _ _).trans hv⟩
  · obtain ⟨e, he, hle⟩ := hold hkj
    exact ⟨e, by rw [List.getElem?_modify_ne _ _ (Ne.symm hkj)]; exact he, hle⟩

/-- Two frames at one place get small marks; the others keep theirs. -/
theorem NoisyCopy.checkPair (h : NoisyCopy cf bf d) (hd : d ≤ STOP_CHECK_BITS)
    (m : Marks cf.length bf.length) {j : Nat} (hj : j < cf.length) :
    ∃ m', checkPair cf bf m j j = some (.next m') ∧
      ∀ k, (k ≠ j → SmallAt d m k) → SmallAt d m' k := by
  have hjb : j < bf.length := h.length ▸ hj
  have hx : cf[j]? = some (cf.get ⟨j, hj⟩) := List.getElem?_eq_getElem _
  have hy : bf[j]? = some (bf.get ⟨j, hjb⟩) := List.getElem?_eq_getElem _
  have hnear := h.near j _ _ hx hy
  rcases checkPair_cases m hx hy with ⟨hbig, -⟩ | ⟨-, hstep⟩
  · exact absurd (hnear.trans hd) (Nat.not_le.mpr hbig)
  · refine ⟨_, hstep, fun k hk => ⟨?_, ?_⟩⟩
    · exact exists_le_of_modify_min hnear (m.hc.symm ▸ hj) fun hkj => (hk hkj).1
    · exact exists_le_of_modify_min hnear (m.hb.symm ▸ hjb) fun hkj => (hk hkj).2

/-- The walk ahead from the first frames goes through the whole video. -/
theorem NoisyCopy.walkAhead (h : NoisyCopy cf bf d) (hd : d ≤ STOP_CHECK_BITS)
    (hc : m.cmark[0]? = some 0) (hb : m.bmark[0]? = some 0) :
    ∃ m', checkRange cf bf 0 0 m = some m' ∧ Below d m' := by
  have hlen := h.length
  obtain ⟨m', hm', hP⟩ := forBreak_all
    (P := fun done (m : Marks cf.length bf.length) => ∀ k ∈ 0 :: done, SmallAt d m k)
    (f := fun m j => VideoMatch.Server.checkPair cf bf m (0 + j) (0 + j))
    (List.range' 1 (min (cf.length - 0) (bf.length - 0) - 1)) m
    (by
      intro done j rest m hsplit hm
      have hj : j ∈ List.range' 1 (min (cf.length - 0) (bf.length - 0) - 1) := by
        rw [hsplit]; simp
      rw [List.mem_range'_1] at hj
      rw [Nat.zero_add]
      obtain ⟨m', hstep, hsmall⟩ := h.checkPair hd m (j := j) (by omega)
      refine ⟨m', hstep, fun k hk => hsmall k fun hkj => hm k ?_⟩
      rcases List.mem_cons.mp hk with hzero | hmem
      · exact List.mem_cons.mpr (.inl hzero)
      · rcases List.mem_append.mp hmem with hdone | hlast
        · exact List.mem_cons_of_mem _ hdone
        · exact absurd (List.mem_singleton.mp hlast) hkj)
    (fun k hk => by
      rw [List.mem_singleton] at hk
      subst hk
      exact ⟨⟨0, hc, Nat.zero_le d⟩, 0, hb, Nat.zero_le d⟩)
  have hall : ∀ k < cf.length, SmallAt d m' k := by
    intro k hk
    apply hP k
    rw [List.mem_cons, List.mem_range'_1]
    omega
  refine ⟨m', by rw [VideoMatch.Server.checkRange, hm']; simp [forBreak], ?_, ?_⟩
  · intro k e he
    obtain ⟨e', he', hle⟩ := (hall k (m'.lt_of_cmark he)).1
    rw [he, Option.some.injEq] at he'
    exact he' ▸ hle
  · intro k e he
    obtain ⟨e', he', hle⟩ := (hall k (hlen ▸ m'.lt_of_bmark he)).2
    rw [he, Option.some.injEq] at he'
    exact he' ▸ hle

/-- Before the first frames meet, a walk from another match of the first
query frame leaves the first base frame unmarked. -/
theorem visitMatch_later {p : Nat} (hcf : 0 < cf.length) (hp : p < bf.length) (hne : p ≠ 0)
    (hc : m.cmark[0]? = some 0) (hb : m.bmark[0]? = some 255) :
    ∃ m', visitMatch cf bf 0 m p = some m' ∧ m'.cmark[0]? = some 0 ∧ m'.bmark[0]? = some 255 := by
  obtain ⟨old, hold⟩ := m.bmark_get hp
  have hb' : (m.clearB p).bmark[0]? = some 255 := by
    rw [Marks.clearB, List.getElem?_set_ne hne]; exact hb
  simp only [visitMatch, hold, m.setB_zero hp, Option.bind_eq_bind, Option.bind_some]
  split
  · exact ⟨_, rfl, hc, hb'⟩
  · obtain ⟨m₁, h₁, hP⟩ := forBreak_total
      (P := fun m : Marks cf.length bf.length => m.cmark[0]? = some 0 ∧ m.bmark[0]? = some 255)
      (f := fun m j => checkPair cf bf m (0 + j) (p + j))
      (List.range' 1 (min (cf.length - 0) (bf.length - p) - 1)) (m.clearB p)
      (by
        intro m j hj hm
        rw [List.mem_range'_1] at hj
        have hx : cf[0 + j]? = some (cf.get ⟨0 + j, by omega⟩) := List.getElem?_eq_getElem _
        have hy : bf[p + j]? = some (bf.get ⟨p + j, by omega⟩) := List.getElem?_eq_getElem _
        rcases checkPair_cases m hx hy with ⟨-, h⟩ | ⟨-, h⟩
        · exact ⟨_, h, hm⟩
        · refine ⟨_, h, ?_, ?_⟩
          · exact (List.getElem?_modify_ne _ _ (by omega)).trans hm.1
          · exact (List.getElem?_modify_ne _ _ (by omega)).trans hm.2)
      ⟨hc, hb'⟩
    refine ⟨m₁, ?_, hP⟩
    rw [checkRange, h₁]
    simp [forBreak]

/-- After the first frame every mark is at most `d`, whatever the order in
which its matches are visited. -/
theorem NoisyCopy.checkFrame_zero (h : NoisyCopy cf bf d) (hd : d ≤ STOP_CHECK_BITS)
    (er : EqualRange UInt64) :
    ∃ m, checkFrame cf bf er (Marks.init _ _, 0) 0 = some (m, 0) ∧ Below d m := by
  have hpos := h.pos
  have hlen := h.length
  have hx : cf[0]? = some (cf.get ⟨0, hpos⟩) := List.getElem?_eq_getElem hpos
  generalize cf.get ⟨0, hpos⟩ = x at hx
  have hzero : 0 ∈ er.range bf x := er.mem_range.mpr (h.first.symm.trans hx)
  have hmark : (Marks.init cf.length bf.length).cmark[0]? = some 255 := by simp [Marks.init, hpos]
  obtain ⟨m, hm, hP⟩ := foldlM_all
    (P := fun done (m : Marks cf.length bf.length) => Below d m ∨
      (0 ∉ done ∧ m.cmark[0]? = some 0 ∧ m.bmark[0]? = some 255))
    (f := visitMatch cf bf 0) (er.range bf x) ((Marks.init _ _).clearC 0)
    (by
      intro done p rest m hsplit hm
      have hget : bf[p]? = some x := er.mem_range.mp (by rw [hsplit]; simp)
      have hp : p < bf.length := (List.getElem?_eq_some_iff.mp hget).1
      rcases hm with hbelow | ⟨hnot, hc, hb⟩
      · obtain ⟨m', hm', hbelow'⟩ := hbelow.visitMatch hpos hp
        exact ⟨m', hm', .inl hbelow'⟩
      by_cases hp0 : p = 0
      · subst hp0
        have hb' : (m.clearB 0).bmark[0]? = some 0 := by
          rw [Marks.clearB, List.getElem?_set_self (m.hb.symm ▸ hp)]
        obtain ⟨m', hm', hbelow⟩ := h.walkAhead (m := m.clearB 0) hd hc hb'
        refine ⟨m', ?_, .inl hbelow⟩
        have hgood : ¬ 255 < GOOD_BITS := by decide
        simp only [visitMatch, hb, m.setB_zero hp, Option.bind_eq_bind, Option.bind_some,
          if_neg hgood, hm']
      · obtain ⟨m', hm', hc', hb'⟩ := visitMatch_later hpos hp hp0 hc hb
        exact ⟨m', hm', .inr ⟨by simp [hnot, Ne.symm hp0], hc', hb'⟩⟩)
    (.inr ⟨by simp, by simp [Marks.clearC, Marks.init, hpos], by
      simp [Marks.clearC, Marks.init, ← hlen, hpos]⟩)
  have hbelow : Below d m := hP.resolve_right fun hn => hn.1 hzero
  refine ⟨m, ?_, hbelow⟩
  have hcount : er.count bf x > 0 := List.length_pos_of_mem hzero
  simp only [checkFrame, hmark, hx, Option.bind_eq_bind, Option.bind_some]
  rw [if_neg (by decide), if_pos hcount, Marks.setC_zero _ hpos, Option.bind_some, hm]
  rfl

theorem NoisyCopy.finalMarks (h : NoisyCopy cf bf d) (hlow : CHECK_BITS ≤ d)
    (hd : d ≤ STOP_CHECK_BITS) (er : EqualRange UInt64) :
    ∃ m, finalMarks cf bf er = some m ∧ Below d m := by
  obtain ⟨m, hm, hbelow⟩ := h.checkFrame_zero hd er
  obtain ⟨n, hn⟩ : ∃ n, cf.length = n + 1 := ⟨cf.length - 1, by have := h.pos; omega⟩
  obtain ⟨st, hst, hP⟩ := foldlM_total
    (P := fun st : Marks cf.length bf.length × Nat => Below d st.1)
    (f := checkFrame cf bf er) ((List.range n).map Nat.succ) (m, 0)
    (fun st i hi hbelow => by
      obtain ⟨k, hk, rfl⟩ := List.mem_map.mp hi
      rw [List.mem_range] at hk
      exact hbelow.checkFrame hlow er st.2 (by omega)) hbelow
  have hrange : List.range cf.length = 0 :: (List.range n).map Nat.succ := by
    rw [hn, List.range_succ_eq_map]
  exact ⟨st.1, by simp [VideoMatch.Server.finalMarks, hrange, hm, hst], hP⟩

/-- A side all of whose marks are at most `d`. -/
theorem partialScore_below {mark : List Nat} (hpos : 0 < mark.length) (hd : d ≤ 18)
    (h : ∀ k e : Nat, mark[k]? = some e → e ≤ d) :
    (markTotals mark).2 ≠ 0 ∧ (markTotals mark).1 / (markTotals mark).2 ≤ 18 ∧
      (18 - d) / 18 ≤ partialScore (markTotals mark).1 (markTotals mark).2 mark.length := by
  have hall : mark.filter (· ≠ 255) = mark := by
    rw [List.filter_eq_self]
    intro e he
    obtain ⟨k, hk⟩ := List.mem_iff_getElem?.mp he
    have hle := h k e hk
    simp only [ne_eq, decide_not, Bool.not_eq_eq_eq_not, Bool.not_true, decide_eq_false_iff_not]
    omega
  have hcnt : (markTotals mark).2 = mark.length := congrArg List.length hall
  have hle := markTotals_fst_le (b := d) fun k e he => .inr (h k e he)
  rw [hcnt] at hle ⊢
  have havg : (markTotals mark).1 / mark.length ≤ d := by
    rw [Nat.div_le_iff_le_mul hpos]
    omega
  refine ⟨hpos.ne', havg.trans hd, ?_⟩
  have havg' : (((markTotals mark).1 / mark.length : Nat) : ℚ) ≤ d := by exact_mod_cast havg
  have hne : (mark.length : ℚ) ≠ 0 := by positivity
  rw [partialScore, CUT_RATIO, mul_zero, sub_zero, mul_one, div_self hne, mul_one]
  linarith

/-- The score of a noisy copy. -/
theorem score_of_noisyCopy (er : EqualRange UInt64) (h : NoisyCopy cf bf d)
    (hlow : CHECK_BITS ≤ d) (hd : d ≤ 18) :
    ∃ score, checkCandidate er bf cf = some score ∧ ((18 - d) / 18 : ℚ) ^ 2 ≤ score := by
  have h28 : STOP_CHECK_BITS = 28 := rfl
  have hlen := h.length
  have hpos := h.pos
  obtain ⟨m, hm, hbelow⟩ := h.finalMarks hlow (by omega) er
  obtain ⟨hcntc, havgc, hsc⟩ := partialScore_below (by rw [m.hc]; exact hpos) hd hbelow.cmark
  obtain ⟨hcntb, havgb, hsb⟩ := partialScore_below (by rw [m.hb]; omega) hd hbelow.bmark
  rw [m.hc] at hsc
  rw [m.hb] at hsb
  have hsize : ¬ cf.length * bf.length = 0 := Nat.mul_ne_zero (by omega) (by omega)
  refine ⟨partialScore (markTotals m.cmark).1 (markTotals m.cmark).2 cf.length
    * partialScore (markTotals m.bmark).1 (markTotals m.bmark).2 bf.length, ?_, ?_⟩
  · simp only [checkCandidate, hm, sumMarks_eq, Option.bind_eq_bind, Option.bind_some,
      if_neg hsize, if_neg hcntc, if_neg hcntb, gt_iff_lt, if_neg (Nat.not_lt.mpr havgc),
      if_neg (Nat.not_lt.mpr havgb)]
  · have hd' : (0 : ℚ) ≤ (18 - d) / 18 := by
      have hcast : (d : ℚ) ≤ 18 := by exact_mod_cast hd
      apply div_nonneg _ (by norm_num)
      linarith
    rw [sq]
    exact mul_le_mul hsc hsb hd' (hd'.trans hsc)

end NoisyCopies

/-! ## What the store reports -/

namespace VideoDB

/-- A stored video is reported with the score of its comparison, if it
shares a hash, passes the length test and scores above the threshold. -/
theorem mem_answer {s : VideoDB} (hs : Reachable s) (er : EqualRange UInt64) (o : HashOrder)
    (q : List UInt64) : ∃ out, queryFrames er o s q [] = some (toInt out.length, out, s) ∧
      (∀ r ∈ out, ∃ frames, (r.1, frames) ∈ s.content) ∧
      ∀ name frames, (name, frames) ∈ s.content → ∀ score, (name, score) ∈ out ↔
        sharesFrame frames q ∧
        ¬ lengthDiffers (distinctFrames frames).length (unorderedSet q).length ∧
        checkCandidate er frames q = some score ∧ score > threshold := by
  obtain ⟨out, hquery, hout, -⟩ := queryFrames_spec hs.inv er o q []
  rw [Multiset.coe_nil, Multiset.zero_add] at hout
  refine ⟨out, hquery, ?_, ?_⟩
  · intro r hr
    rw [← Multiset.mem_coe, hout, Catalogue.mem_scan] at hr
    obtain ⟨frames, hv, -⟩ := hr
    exact ⟨frames, mem_catalogue.mp hv⟩
  · intro name frames hv score
    rw [← Multiset.mem_coe, hout, Catalogue.mem_scan]
    constructor
    · intro h
      obtain ⟨frames', hv', h⟩ := h
      rwa [s.catalogue.frames_unique (mem_catalogue.mpr hv) hv']
    · intro h
      exact ⟨frames, mem_catalogue.mpr hv, h⟩

/-- What is reported is similar: the score is at most the product of the
shares of frames for which `diff_bits` is at most 28 with a frame of the
other side, and each share is above nine in a hundred. -/
theorem reported_similar {s : VideoDB} (hs : Reachable s) (er : EqualRange UInt64) (o : HashOrder)
    (q : List UInt64) : ∃ out, queryFrames er o s q [] = some (toInt out.length, out, s) ∧
      ∀ r ∈ out, ∃ frames, (r.1, frames) ∈ s.content ∧
        r.2 ≤ (nearCount q frames / q.length : ℚ) * (nearCount frames q / frames.length) ∧
        9 * q.length < 100 * nearCount q frames ∧
        9 * frames.length < 100 * nearCount frames q := by
  obtain ⟨out, hquery, hnames, hmem⟩ := mem_answer hs er o q
  refine ⟨out, hquery, fun r hr => ?_⟩
  obtain ⟨name, score⟩ := r
  obtain ⟨frames, hv⟩ := hnames _ hr
  obtain ⟨hshare, -, hscore, hgt⟩ := (hmem name frames hv score).mp hr
  obtain ⟨x, hq, -, hf⟩ := hshare
  have hle := score_le_near er hq hf hscore
  have hratio : ∀ l l' : List UInt64, (0 : ℚ) ≤ nearCount l l' / l.length ∧
      (nearCount l l' / l.length : ℚ) ≤ 1 := by
    intro l l'
    have hcount : (nearCount l l' : ℚ) ≤ l.length := by exact_mod_cast nearCount_le l l'
    exact ⟨by positivity, div_le_one_of_le₀ hcount (Nat.cast_nonneg _)⟩
  have hshare : ∀ {l l' : List UInt64}, x ∈ l → score ≤ (nearCount l l' / l.length : ℚ) →
      9 * l.length < 100 * nearCount l l' := by
    intro l l' hx hsc
    have hpos : (0 : ℚ) < l.length := by exact_mod_cast List.length_pos_of_mem hx
    have hlt : (9 / 100 : ℚ) < nearCount l l' / l.length := lt_of_lt_of_le hgt hsc
    rw [lt_div_iff₀ hpos] at hlt
    have hcast : (9 * l.length : ℚ) < 100 * nearCount l l' := by linarith
    exact_mod_cast hcast
  obtain ⟨hq0, hq1⟩ := hratio q frames
  obtain ⟨hf0, hf1⟩ := hratio frames q
  exact ⟨frames, hv, hle, hshare hq (hle.trans (mul_le_of_le_one_right hq0 hf1)),
    hshare hf (hle.trans (mul_le_of_le_one_left hf0 hq1))⟩

theorem reported_similar_single : ∃ s : VideoDB, s.content = [(ascii "v", [1, 2, 3])] ∧
    ∃ out, queryFrames default default s [2, 3] [] = some (toInt out.length, out, s) ∧
      ∀ r ∈ out, ∃ frames, (r.1, frames) ∈ s.content ∧
        9 * frames.length < 100 * nearCount frames [2, 3] := by
  obtain ⟨s, hs, hcontent⟩ := addReached_single (ascii "v") [1, 2, 3]
  obtain ⟨out, hquery, hout⟩ := reported_similar hs.reachable default default [2, 3]
  refine ⟨s, hcontent, out, hquery, fun r hr => ?_⟩
  obtain ⟨frames, hv, -, -, hnear⟩ := hout r hr
  exact ⟨frames, hv, hnear⟩

/-- A copy with noise of at most 12 bits in each frame and none in the first
is reported, with a score of at least 1/9, as soon as it is a candidate. -/
theorem noisy_copy_reported {s : VideoDB} (hs : Reachable s) (er : EqualRange UInt64)
    (o : HashOrder) {name : Bytes} {frames q : List UInt64} (hv : (name, frames) ∈ s.content)
    (hcopy : NoisyCopy q frames 12) :
    ∃ out, queryFrames er o s q [] = some (toInt out.length, out, s) ∧
      ((∃ score, (name, score) ∈ out) ↔ sharesFrame frames q ∧
        ¬ lengthDiffers (distinctFrames frames).length (unorderedSet q).length) ∧
      ∀ score, (name, score) ∈ out → 1 / 9 ≤ score := by
  obtain ⟨out, hquery, -, hmem⟩ := mem_answer hs er o q
  obtain ⟨score, hscore, hle⟩ := score_of_noisyCopy er hcopy le_rfl (by norm_num)
  have hninth : (1 / 9 : ℚ) ≤ score := by
    norm_num at hle ⊢
    exact hle
  refine ⟨out, hquery, ?_, ?_⟩
  · constructor
    · intro h
      obtain ⟨score', h⟩ := h
      obtain ⟨hshare, hlen, -⟩ := (hmem name frames hv score').mp h
      exact ⟨hshare, hlen⟩
    · intro h
      refine ⟨score, (hmem name frames hv score).mpr ⟨h.1, h.2, hscore, ?_⟩⟩
      have hthreshold : threshold < 1 / 9 := by norm_num [threshold]
      exact hthreshold.trans_le hninth
  · intro score' h
    obtain ⟨-, -, hscore', -⟩ := (hmem name frames hv score').mp h
    rw [hscore, Option.some.injEq] at hscore'
    exact hscore' ▸ hninth

/-- A copy of `[5, 7]` with one bit of noise in the second frame. -/
theorem noisy_copy_reported_single : ∃ s : VideoDB, s.content = [(ascii "v", [5, 7])] ∧
    ∃ out, queryFrames default default s [5, 6] [] = some (toInt out.length, out, s) ∧
      ∃ score, (ascii "v", score) ∈ out := by
  obtain ⟨s, hs, hcontent⟩ := addReached_single (ascii "v") [5, 7]
  have hcopy : NoisyCopy [5, 6] [5, 7] 12 := by
    refine ⟨by decide, rfl, rfl, fun k x y hx hy => ?_⟩
    match k with
    | 0 => cases hx; cases hy; exact (diffBits_self 5).le.trans (Nat.zero_le 12)
    | 1 => cases hx; cases hy; decide +kernel
    | k + 2 => cases hx
  obtain ⟨out, hquery, hiff, -⟩ := noisy_copy_reported hs.reachable default default
    (hcontent ▸ List.mem_singleton_self _) hcopy
  exact ⟨s, hcontent, out, hquery, hiff.mpr ⟨by decide, fun h => absurd h.1 (by decide)⟩⟩

end VideoDB

end VideoMatch.Server
