/-
VideoMatch.Server.OverlapTheorems — videos that have a part in common.

`Overlap cf bf a b n` says that `n` frames of the query from frame `a` on
are the frames of the base from `b` on, that the base has the first of
them nowhere else, and that no other frame of the query is close to a
frame of the base: `diff_bits` is above 28 for all of them. Nothing is
asked of the other base frames.

The main loop then marks the common part on both sides and nothing else,
whatever the order in which matches are visited: the marks are `stripe`s.
The score is the product of the two shares (`Overlap.checkCandidate`). A
clip of a stored video is the case in which the part is the whole query.
-/
import VideoMatch.Server.Reachable

namespace VideoMatch.Server

open VideoMatch.Cxx

/-! ## Striped marks -/

/-- Marks of `len` frames: 0 on the `n` frames from `a` on, unmatched
elsewhere. -/
def stripe (len a n : Nat) : List Nat :=
  (List.range len).map fun k => if a ≤ k ∧ k < a + n then 0 else 255

theorem length_stripe (len a n : Nat) : (stripe len a n).length = len := by
  simp [stripe]

theorem getElem?_stripe {len a n k : Nat} (hk : k < len) :
    (stripe len a n)[k]? = some (if a ≤ k ∧ k < a + n then 0 else 255) := by
  simp [stripe, hk]

theorem stripe_zero (len a : Nat) : stripe len a 0 = List.replicate len 255 := by
  apply List.ext_getElem (by simp [length_stripe])
  intro k hk hk'
  simp only [stripe, List.getElem_map, List.getElem_range, List.getElem_replicate]
  rw [if_neg (by omega)]

/-- One more frame at the end of the stripe. -/
theorem modify_stripe (len a n : Nat) :
    (stripe len a n).modify (a + n) (min 0) = stripe len a (n + 1) := by
  apply List.ext_getElem (by simp [length_stripe])
  intro k hk hk'
  rw [List.getElem_modify]
  simp only [stripe, List.getElem_map, List.getElem_range, Nat.zero_min]
  split
  · next heq => rw [if_pos (by omega)]
  · next hne =>
      have hiff : (a ≤ k ∧ k < a + n) ↔ (a ≤ k ∧ k < a + (n + 1)) := by omega
      simp only [hiff]

theorem set_stripe (len a : Nat) : (stripe len a 0).set a 0 = stripe len a 1 := by
  rw [← modify_stripe, Nat.add_zero, List.modify_eq_set_getElem?]
  cases hget : (stripe len a 0)[a]? with
  | none =>
      rw [List.getElem?_eq_none_iff] at hget
      simp [List.set_eq_of_length_le hget]
  | some d => simp

/-- The frames of the stripe are counted, with the sum 0. -/
theorem markTotals_stripe {len a n : Nat} (h : a + n ≤ len) :
    markTotals (stripe len a n) = (0, n) := by
  obtain ⟨rest, rfl⟩ := Nat.exists_eq_add_of_le h
  have hconst : ∀ (f g : Nat → Nat) (c k : Nat), (∀ i < k, f (g i) = c) →
      ((List.range k).map g).map f = List.replicate k c := by
    intro f g c k h
    rw [List.map_map, List.eq_replicate_iff]
    refine ⟨by simp, fun d hd => ?_⟩
    obtain ⟨i, hi, rfl⟩ := List.mem_map.mp hd
    exact h i (List.mem_range.mp hi)
  have hparts : stripe (a + n + rest) a n
      = List.replicate a 255 ++ List.replicate n 0 ++ List.replicate rest 255 := by
    rw [stripe, List.range_add, List.range_add, List.map_append, List.map_append]
    congr 1
    · congr 1
      · simpa using hconst (fun k => if a ≤ k ∧ k < a + n then 0 else 255) id 255 a
          fun i hi => if_neg (by simp only [id]; omega)
      · exact hconst _ _ 0 n fun i hi => if_pos (by omega)
    · exact hconst _ _ 255 rest fun i hi => if_neg (by omega)
  rw [hparts]
  simp [markTotals]

/-- The marks when the first `k` frames of a common part have been found. -/
def stripes (nc nb a b k : Nat) : Marks nc nb :=
  ⟨stripe nc a k, stripe nb b k, length_stripe nc a k, length_stripe nb b k⟩

theorem stripes_zero (nc nb a b : Nat) : stripes nc nb a b 0 = Marks.init nc nb :=
  Marks.ext (stripe_zero nc a) (stripe_zero nb b)

theorem lower_stripes (nc nb a b k : Nat) :
    (stripes nc nb a b k).lower (a + k) (b + k) 0 = stripes nc nb a b (k + 1) :=
  Marks.ext (modify_stripe nc a k) (modify_stripe nb b k)

/-! ## The overlap -/

/-- No frame of the base is within the reach of a walk from `x`, by what
`diff_bits` returns. -/
def FarFrom (bf : List UInt64) (x : UInt64) : Prop := ∀ y ∈ bf, STOP_CHECK_BITS < diffBits x y

/-- The query and the base have `n` frames in common, from `a` and `b` on. -/
structure Overlap (cf bf : List UInt64) (a b n : Nat) : Prop where
  pos : 0 < n
  inQuery : a + n ≤ cf.length
  inBase : b + n ≤ bf.length
  same : ∀ k < n, cf[a + k]? = bf[b + k]?
  once : ∀ j < bf.length, bf[j]? = cf[a]? → j = b
  far : ∀ i x, cf[i]? = some x → (i < a ∨ a + n ≤ i) → FarFrom bf x

section Overlaps

variable {cf bf : List UInt64} {a b n : Nat}

/-- A clip of a video overlaps with it in all its frames. -/
theorem overlap_clip {pre clip post : List UInt64} {x : UInt64}
    (honce : x ∉ pre ++ clip ++ post) :
    Overlap (x :: clip) (pre ++ x :: clip ++ post) 0 pre.length (clip.length + 1) where
  pos := Nat.succ_pos _
  inQuery := by simp
  inBase := by simp
  same := by
    intro k hk
    rw [List.append_assoc, List.getElem?_append_right (by omega), Nat.zero_add,
      Nat.add_sub_cancel_left, List.getElem?_append_left (by simpa using hk)]
  once := by
    intro j _ hget
    simp only [List.mem_append, not_or] at honce
    rw [List.getElem?_cons_zero, List.append_assoc] at hget
    rcases Nat.lt_trichotomy j pre.length with hlt | heq | hgt
    · rw [List.getElem?_append_left hlt] at hget
      exact absurd (List.mem_of_getElem? hget) honce.1.1
    · exact heq
    · obtain ⟨i, hi⟩ := Nat.exists_eq_add_of_lt hgt
      rw [List.getElem?_append_right (by omega), List.cons_append,
        List.getElem?_cons, if_neg (by omega)] at hget
      have hmem := List.mem_of_getElem? hget
      rw [List.mem_append] at hmem
      exact absurd hmem (not_or.mpr ⟨honce.1.2, honce.2⟩)
  far := by
    intro i x hx hout
    have hlt := (List.getElem?_eq_some_iff.mp hx).1
    rw [List.length_cons] at hlt
    omega

theorem FarFrom.not_mem {x : UInt64} (h : FarFrom bf x) : x ∉ bf := by
  intro hmem
  have hlt := h x hmem
  rw [diffBits_self] at hlt
  exact absurd hlt (Nat.not_lt_zero _)

/-- The main loop passes over an unmatched frame that is far from the base. -/
theorem checkFrame_far (er : EqualRange UInt64) {m : Marks cf.length bf.length} {i : Nat}
    {x : UInt64} (hx : cf[i]? = some x) (hmark : m.cmark[i]? = some 255) (hfar : FarFrom bf x)
    (skipped : Nat) : ∃ skipped', checkFrame cf bf er (m, skipped) i = some (m, skipped') := by
  have hcount : er.count bf x = 0 := by
    rw [EqualRange.count, List.length_eq_zero_iff, List.eq_nil_iff_forall_not_mem]
    intro p hp
    exact hfar.not_mem (List.mem_of_getElem? (er.mem_range.mp hp))
  obtain ⟨found, hfound, hfirst⟩ := minDiffBits_firstMin x bf 0
  have h28 : STOP_CHECK_BITS = 28 := rfl
  have hdiff : found.1 > CHECK_BITS := by
    have h12 : CHECK_BITS = 12 := rfl
    by_contra hle
    have hat := hfirst.attained (by omega)
    rw [List.getElem?_map, Option.map_eq_some_iff] at hat
    obtain ⟨y, hy, hxy⟩ := hat
    have hlt := hfar y (List.mem_of_getElem? hy)
    omega
  have hgood : ¬ 255 < GOOD_BITS := by decide
  simp only [checkFrame, hmark, hx, hcount, hfound, Option.bind_eq_bind, Option.bind_some]
  rw [if_neg hgood, if_neg (lt_irrefl 0), if_pos hdiff]
  split
  · exact ⟨_, rfl⟩
  · exact ⟨_, rfl⟩

/-- The walk ahead from the start of the common part marks it to its end. -/
theorem Overlap.walkAhead (h : Overlap cf bf a b n) :
    forBreak (fun m j => checkPair cf bf m (a + j) (b + j))
      (List.range' 1 (min (cf.length - a) (bf.length - b) - 1))
      (stripes cf.length bf.length a b 1) = some (stripes cf.length bf.length a b n) := by
  have hpos := h.pos
  have hc := h.inQuery
  have hb := h.inBase
  have hsplit : List.range' 1 (min (cf.length - a) (bf.length - b) - 1)
      = List.range' 1 (n - 1) ++ List.range' n (min (cf.length - a) (bf.length - b) - n) := by
    have hfrom : 1 + (n - 1) = n := by omega
    have hlen : n - 1 + (min (cf.length - a) (bf.length - b) - n)
        = min (cf.length - a) (bf.length - b) - 1 := by omega
    rw [← hlen, ← List.range'_append_1, hfrom]
  obtain ⟨m, hm, hP⟩ := forBreak_until
    (P := fun done (m : Marks cf.length bf.length) =>
      m = stripes cf.length bf.length a b (done.length + 1))
    (f := fun m j => checkPair cf bf m (a + j) (b + j))
    (List.range' 1 (n - 1)) (List.range' n (min (cf.length - a) (bf.length - b) - n))
    (stripes cf.length bf.length a b 1)
    (by
      intro done j rest m hxs hm
      have hj : (List.range' 1 (n - 1))[done.length]? = some j := by rw [hxs]; simp
      obtain ⟨hlt, hj⟩ := List.getElem?_eq_some_iff.mp hj
      rw [List.length_range'] at hlt
      rw [List.getElem_range', Nat.one_mul, Nat.add_comm] at hj
      have hjn : j < n := by omega
      obtain ⟨x, hx⟩ : ∃ x, cf[a + j]? = some x := ⟨_, List.getElem?_eq_getElem (by omega)⟩
      have hy : bf[b + j]? = some x := (h.same j hjn).symm.trans hx
      rcases checkPair_cases m hx hy with ⟨hbig, -⟩ | ⟨-, hstep⟩
      · rw [diffBits_self] at hbig
        exact absurd hbig (Nat.not_lt_zero _)
      · refine ⟨_, hstep, ?_⟩
        rw [diffBits_self, hm, ← hj, lower_stripes, List.length_append, List.length_singleton])
    (by
      intro m j rest hys hm
      have hj : (List.range' n (min (cf.length - a) (bf.length - b) - n))[0]? = some j := by
        rw [hys]; rfl
      obtain ⟨hlt, hj⟩ := List.getElem?_eq_some_iff.mp hj
      rw [List.length_range'] at hlt
      rw [List.getElem_range', Nat.mul_zero, Nat.add_zero] at hj
      obtain ⟨x, hx⟩ : ∃ x, cf[a + j]? = some x := ⟨_, List.getElem?_eq_getElem (by omega)⟩
      obtain ⟨y, hy⟩ : ∃ y, bf[b + j]? = some y := ⟨_, List.getElem?_eq_getElem (by omega)⟩
      have hfar := h.far _ x hx (.inr (by omega)) y (List.mem_of_getElem? hy)
      rcases checkPair_cases m hx hy with ⟨-, hstep⟩ | ⟨hsmall, -⟩
      · exact hstep
      · exact absurd hsmall (Nat.not_le.mpr hfar))
    rfl
  rw [hsplit, hm, hP, List.length_range']
  congr 2
  omega

/-- The walk back from the start of the common part stops at once. -/
theorem Overlap.walkBack (h : Overlap cf bf a b n) (m : Marks cf.length bf.length) :
    forBreak (fun m j => checkPair cf bf m (a - j) (b - j)) (List.range' 1 (min a b)) m
      = some m := by
  have hc := h.inQuery
  have hb := h.inBase
  cases hmin : min a b with
  | zero => rfl
  | succ k =>
      obtain ⟨x, hx⟩ : ∃ x, cf[a - 1]? = some x := ⟨_, List.getElem?_eq_getElem (by omega)⟩
      obtain ⟨y, hy⟩ : ∃ y, bf[b - 1]? = some y := ⟨_, List.getElem?_eq_getElem (by omega)⟩
      have hfar := h.far _ x hx (.inl (by omega)) y (List.mem_of_getElem? hy)
      rcases checkPair_cases m hx hy with ⟨-, hstep⟩ | ⟨hsmall, -⟩
      · rw [List.range'_succ, forBreak, hstep]
      · exact absurd hsmall (Nat.not_le.mpr hfar)

/-- The first common frame finds the whole part. -/
theorem Overlap.checkFrame_first (h : Overlap cf bf a b n) (er : EqualRange UInt64)
    (skipped : Nat) :
    checkFrame cf bf er (stripes cf.length bf.length a b 0, skipped) a
      = some (stripes cf.length bf.length a b n, skipped) := by
  have hpos := h.pos
  have hc := h.inQuery
  have hb := h.inBase
  obtain ⟨x, hx⟩ : ∃ x, cf[a]? = some x := ⟨_, List.getElem?_eq_getElem (by omega)⟩
  have hy : bf[b]? = some x := (h.same 0 hpos).symm.trans hx
  have hrange : er.range bf x = [b] := by
    have hmem : ∀ p, p ∈ er.range bf x ↔ p = b := by
      intro p
      rw [er.mem_range]
      constructor
      · intro hp
        exact h.once p (List.getElem?_eq_some_iff.mp hp).1 (hp.trans hx.symm)
      · intro hp
        rw [hp, hy]
    have hperm : (er.range bf x).Perm [b] :=
      (List.perm_ext_iff_of_nodup (er.nodup_range bf x) (List.nodup_singleton b)).mpr
        fun p => by rw [hmem, List.mem_singleton]
    exact List.perm_singleton.mp hperm
  have hcount : er.count bf x = 1 := by rw [EqualRange.count, hrange]; rfl
  have hcmark : (stripes cf.length bf.length a b 0).cmark[a]? = some 255 := by
    rw [stripes, getElem?_stripe (by omega), if_neg (by omega)]
  have hclear : ((stripes cf.length bf.length a b 0).clearC a).clearB b
      = stripes cf.length bf.length a b 1 :=
    Marks.ext (set_stripe cf.length a) (set_stripe bf.length b)
  have hbmark : ((stripes cf.length bf.length a b 0).clearC a).bmark[b]? = some 255 := by
    rw [Marks.clearC, stripes, getElem?_stripe (by omega), if_neg (by omega)]
  have hgood : ¬ 255 < GOOD_BITS := by decide
  have hvisit : visitMatch cf bf a ((stripes cf.length bf.length a b 0).clearC a) b
      = some (stripes cf.length bf.length a b n) := by
    simp only [visitMatch, hbmark, Marks.setB_zero _ (show b < bf.length by omega), hclear,
      Option.bind_eq_bind, Option.bind_some, if_neg hgood, checkRange, h.walkAhead, h.walkBack]
  simp only [checkFrame, hcmark, hx, hcount, hrange, Option.bind_eq_bind, Option.bind_some,
    if_neg hgood, Marks.setC_zero _ (show a < cf.length by omega), List.foldlM_cons,
    List.foldlM_nil, hvisit]
  rfl

/-- The marks when the main loop ends. -/
theorem Overlap.finalMarks (h : Overlap cf bf a b n) (er : EqualRange UInt64) :
    finalMarks cf bf er = some (stripes cf.length bf.length a b n) := by
  have hpos := h.pos
  have hc := h.inQuery
  obtain ⟨st, hst, hP⟩ := foldlM_all
    (P := fun done (st : Marks cf.length bf.length × Nat) =>
      st.1 = stripes cf.length bf.length a b (if done.length ≤ a then 0 else n))
    (f := checkFrame cf bf er) (List.range cf.length) (Marks.init _ _, 0)
    (by
      intro done i rest st hsplit hst
      obtain ⟨m, skipped⟩ := st
      subst hst
      have hat : (List.range cf.length)[done.length]? = some i := by rw [hsplit]; simp
      obtain ⟨hlt, hi⟩ := List.getElem?_eq_some_iff.mp hat
      rw [List.getElem_range] at hi
      rw [List.length_range] at hlt
      subst hi
      rw [List.length_append, List.length_singleton]
      obtain ⟨x, hx⟩ : ∃ x, cf[done.length]? = some x := ⟨_, List.getElem?_eq_getElem hlt⟩
      have hfar : ∀ k, (done.length < a ∨ a + n ≤ done.length) →
          (if done.length ≤ a then 0 else n) = k → ∃ st,
          checkFrame cf bf er (stripes cf.length bf.length a b k, skipped) done.length = some st ∧
            st.1 = stripes cf.length bf.length a b k := by
        intro k hout hk
        have hmark : (stripes cf.length bf.length a b k).cmark[done.length]? = some 255 := by
          rw [stripes, getElem?_stripe hlt, if_neg]
          split at hk <;> omega
        obtain ⟨skipped', hstep⟩ := checkFrame_far er hx hmark (h.far _ x hx hout) skipped
        exact ⟨_, hstep, rfl⟩
      rcases Nat.lt_trichotomy done.length a with hbefore | heq | hafter
      · rw [if_pos (by omega), if_pos (by omega)]
        exact hfar 0 (.inl hbefore) (if_pos (by omega))
      · rw [if_pos (by omega), if_neg (by omega), heq]
        exact ⟨_, h.checkFrame_first er skipped, rfl⟩
      · rw [if_neg (by omega), if_neg (by omega)]
        rcases Nat.lt_or_ge done.length (a + n) with hin | hpast
        · have hmark : (stripes cf.length bf.length a b n).cmark[done.length]? = some 0 := by
            rw [stripes, getElem?_stripe hlt, if_pos ⟨Nat.le_of_lt hafter, hin⟩]
          exact ⟨(stripes cf.length bf.length a b n, skipped), by
            simp [checkFrame, hmark, GOOD_BITS], rfl⟩
        · exact hfar n (.inr hpast) (if_neg (by omega)))
    (by rw [List.length_nil, if_pos (Nat.zero_le a), stripes_zero])
  rw [List.length_range, if_neg (by omega)] at hP
  rw [VideoMatch.Server.finalMarks, hst, ← hP]
  rfl

/-- The score of two videos with a common part is the product of its shares
of them. -/
theorem Overlap.checkCandidate (h : Overlap cf bf a b n) (er : EqualRange UInt64) :
    checkCandidate er bf cf = some ((n / cf.length : ℚ) * (n / bf.length)) := by
  have hpos := h.pos
  have hc := h.inQuery
  have hb := h.inBase
  have htotc : markTotals (stripes cf.length bf.length a b n).cmark = (0, n) := markTotals_stripe hc
  have htotb : markTotals (stripes cf.length bf.length a b n).bmark = (0, n) := markTotals_stripe hb
  have hne : ¬ cf.length * bf.length = 0 :=
    Nat.mul_ne_zero (by omega) (by omega)
  have hshare : ∀ len, partialScore 0 n len = n / len := by
    intro len
    simp [partialScore, CUT_RATIO]
  simp only [VideoMatch.Server.checkCandidate, h.finalMarks er, sumMarks_eq, htotc, htotb,
    Option.bind_eq_bind, Option.bind_some, if_neg hne, if_neg hpos.ne', Nat.zero_div, hshare]
  rfl

end Overlaps

end VideoMatch.Server
