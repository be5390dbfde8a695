/-
VideoMatch.Server.MarkTheorems — what holds of the marks at every moment
of the marking loop, and what follows for the scores.

* `Explained.invariant` and `Continues.invariant` are the inductions over
  the log: a property of the marks that every store of the loop keeps
  holds at every moment.
* Every mark is witnessed by two frames, and is at most 28
  (`Explained.witnessed`).
* A mark is raised only when a query frame is matched with a base frame of
  least difference that is marked better already
  (`marks_only_improve_iff`): of the two assignments the source makes
  there, the guarded one is overwritten by the other.
* A query frame whose hash occurs in the base ends with a mark below
  `GOOD_BITS`, and then some base frame is marked as well
  (`finalMarks_exact`).
-/
import VideoMatch.Server.MarkingRun

namespace VideoMatch.Server

open VideoMatch.Cxx

/-! ## Inductions over the log -/

section Histories

variable {cf bf : List UInt64} {er : EqualRange UInt64} {G : Marks cf.length bf.length → Prop}

/-- The marks of a run are those after its newest store. -/
theorem replay_cons {nc nb : Nat} {w : Write} {past : List Write} {m m' : Marks nc nb}
    (hm : replay nc nb past = some m) (hm' : replay nc nb (w :: past) = some m') :
    m.store w = some m' := by
  rwa [replay, hm, Option.bind_some] at hm'

/-- What every store keeps holds at every later moment. -/
theorem Explained.invariant_from {log old : List Write} (h : Explained cf bf er log)
    (hsuffix : old <:+ log)
    (hold : ∃ m, replay cf.length bf.length old = some m ∧ G m)
    (hstep : ∀ m w m', MarkStep er m w → m.store w = some m' → G m → G m') :
    ∃ m, replay cf.length bf.length log = some m ∧ G m := by
  obtain ⟨newer, rfl⟩ := hsuffix
  induction newer with
  | nil => exact hold
  | cons w newer ih =>
      have hpast : newer ++ old <:+ w :: newer ++ old := List.suffix_cons w _
      obtain ⟨m, hm, hG⟩ := ih fun w' past hp => h w' past (hp.trans hpast)
      obtain ⟨m₁, hm₁, hw⟩ := h w (newer ++ old) (List.suffix_refl _)
      rw [hm, Option.some.injEq] at hm₁
      subst hm₁
      obtain ⟨m', hm'⟩ := hw.stores
      refine ⟨m', ?_, hstep m w m' hw hm' hG⟩
      rw [List.cons_append, replay, hm, Option.bind_some, hm']

/-- What holds at the start and every store keeps holds at every moment. -/
theorem Explained.invariant {log : List Write} (h : Explained cf bf er log)
    (hinit : G (Marks.init _ _))
    (hstep : ∀ m w m', MarkStep er m w → m.store w = some m' → G m → G m') :
    ∀ past, past <:+ log → ∃ m, replay cf.length bf.length past = some m ∧ G m := by
  intro past hpast
  have hexp : Explained cf bf er past :=
    fun w older hp => h w older (hp.trans hpast)
  exact hexp.invariant_from (List.nil_suffix) ⟨_, rfl, hinit⟩ hstep

theorem Continues.invariant {r r' : Run cf.length bf.length} (h : Continues er r r')
    (hr : G r.marks)
    (hstep : ∀ m w m', MarkStep er m w → m.store w = some m' → G m → G m') : G r'.marks := by
  obtain ⟨m, hm, hG⟩ := h.explained.invariant_from h.suffix ⟨_, r.replayed, hr⟩ hstep
  rw [r'.replayed, Option.some.injEq] at hm
  exact hm ▸ hG

end Histories

/-! ## One store -/

section Stores

variable {nc nb : Nat} {m m' : Marks nc nb} {i d : Nat}

theorem store_cmark (h : m.store (.cmark i d) = some m') (hd : d < 256) :
    m'.cmark = m.cmark.set i d ∧ m'.bmark = m.bmark := by
  rw [Marks.store, Marks.setC] at h
  split at h
  · cases h
    exact ⟨congrArg (m.cmark.set i) (Nat.mod_eq_of_lt hd), rfl⟩
  · cases h

theorem store_bmark (h : m.store (.bmark i d) = some m') (hd : d < 256) :
    m'.cmark = m.cmark ∧ m'.bmark = m.bmark.set i d := by
  rw [Marks.store, Marks.setB] at h
  split at h
  · cases h
    exact ⟨rfl, congrArg (m.bmark.set i) (Nat.mod_eq_of_lt hd)⟩
  · cases h

/-- An entry after one assignment is the new value or an old entry. -/
theorem getElem?_set_cases {l : List Nat} {k e : Nat} (h : (l.set i d)[k]? = some e) :
    (k = i ∧ e = d) ∨ (k ≠ i ∧ l[k]? = some e) := by
  rw [List.getElem?_set] at h
  split at h
  · next heq =>
      split at h
      · exact .inl ⟨heq.symm, (Option.some.inj h).symm⟩
      · cases h
  · next hne => exact .inr ⟨Ne.symm hne, h⟩

end Stores

section Witnesses

variable {cf bf : List UInt64} {er : EqualRange UInt64} {m m' : Marks cf.length bf.length}

/-- Two frames of the query and the base that differ in `d` bits. -/
def Differ (cf bf : List UInt64) (i j d : Nat) : Prop :=
  ∃ x y, cf[i]? = some x ∧ bf[j]? = some y ∧ d = diffBits x y

theorem LooksNearest.differ {skipped i diff p : Nat} (h : LooksNearest er m skipped i diff p) :
    Differ cf bf i p diff ∧ ∀ k e, Differ cf bf i k e → diff ≤ e := by
  obtain ⟨x, hx, -, hmin⟩ := h.frame
  obtain ⟨found, hfound, hfirst⟩ := minDiffBits_firstMin x bf 0
  rw [hmin, Option.some.injEq] at hfound
  subst hfound
  have hnear := h.near
  have h12 : CHECK_BITS = 12 := rfl
  constructor
  · have hat := hfirst.attained (by simp only; omega)
    rw [List.getElem?_map, Option.map_eq_some_iff] at hat
    obtain ⟨y, hy, hd⟩ := hat
    exact ⟨x, y, hx, hy, hd.symm⟩
  · intro k e he
    obtain ⟨x', y, hx', hy, hdiff⟩ := he
    rw [hx, Option.some.injEq] at hx'
    rw [hdiff, ← hx']
    exact hfirst.le_vals k _ (by simp [hy])

/-- Every store into `cmark` is a difference, and a small one. -/
theorem MarkStep.cmark_differ {i d : Nat} (h : MarkStep er m (.cmark i d)) :
    d ≤ 28 ∧ ∃ j, Differ cf bf i j d := by
  cases h with
  | lowerC hx hy hle _ _ => exact ⟨hle, _, _, _, hx, hy, rfl⟩
  | exactC hx hp => exact ⟨by omega, _, _, _, hx, hp, (diffBits_self _).symm⟩
  | nearestC hn => exact ⟨hn.near.trans (by decide), _, hn.differ.1⟩

/-- Every store into `bmark` is a difference, and a small one. -/
theorem MarkStep.bmark_differ {j d : Nat} (h : MarkStep er m (.bmark j d)) :
    d ≤ 28 ∧ ∃ i, Differ cf bf i j d := by
  cases h with
  | lowerB hx hy hle _ _ => exact ⟨hle, _, _, _, hx, hy, rfl⟩
  | exactB hx hp => exact ⟨by omega, _, _, _, hx, hp, (diffBits_self _).symm⟩
  | nearestB _ hn _ _ => exact ⟨hn.near.trans (by decide), _, hn.differ.1⟩

/-- Every mark is 255 or a difference of at most 28 bits between its frame
and some frame of the other side. -/
structure Witnessed (cf bf : List UInt64) (m : Marks cf.length bf.length) : Prop where
  cmark : ∀ i d : Nat, m.cmark[i]? = some d → d = 255 ∨ d ≤ 28 ∧ ∃ j, Differ cf bf i j d
  bmark : ∀ j d : Nat, m.bmark[j]? = some d → d = 255 ∨ d ≤ 28 ∧ ∃ i, Differ cf bf i j d

theorem witnessed_init : Witnessed cf bf (Marks.init _ _) := by
  have hrep : ∀ {n i d : Nat}, (List.replicate n 255)[i]? = some d → d = 255 := by
    intro n i d h
    exact List.eq_of_mem_replicate (List.mem_of_getElem? h)
  exact ⟨fun i d h => .inl (hrep h), fun j d h => .inl (hrep h)⟩

theorem Witnessed.store {w : Write} (h : Witnessed cf bf m) (hw : MarkStep er m w)
    (hm' : m.store w = some m') : Witnessed cf bf m' := by
  cases w with
  | cmark i d =>
      have hd := hw.cmark_differ
      obtain ⟨hc, hb⟩ := store_cmark hm' (by omega)
      constructor
      · intro k e he
        rw [hc] at he
        rcases getElem?_set_cases he with ⟨rfl, rfl⟩ | ⟨-, hold⟩
        · exact .inr hd
        · exact h.cmark k e hold
      · rw [hb]
        exact h.bmark
  | bmark j d =>
      have hd := hw.bmark_differ
      obtain ⟨hc, hb⟩ := store_bmark hm' (by omega)
      constructor
      · rw [hc]
        exact h.cmark
      · intro k e he
        rw [hb] at he
        rcases getElem?_set_cases he with ⟨rfl, rfl⟩ | ⟨-, hold⟩
        · exact .inr hd
        · exact h.bmark k e hold

/-- At every moment of the loop every mark is witnessed. -/
theorem Explained.witnessed {log : List Write} (h : Explained cf bf er log) :
    ∀ past, past <:+ log → ∃ m, replay cf.length bf.length past = some m ∧ Witnessed cf bf m :=
  h.invariant witnessed_init fun _ _ _ hw hm' hm => hm.store hw hm'

/-- The marks of a run are witnessed. -/
theorem Explained.witnessed_marks {r : Run cf.length bf.length} (h : Explained cf bf er r.log) :
    Witnessed cf bf r.marks := by
  obtain ⟨m, hm, hwit⟩ := h.witnessed r.log (List.suffix_refl _)
  obtain rfl : r.marks = m := Option.some.inj (r.replayed.symm.trans hm)
  exact hwit

end Witnesses

/-! ## Better marks -/

section Order

variable {nc nb : Nat}

/-- No mark of `m` is larger than the mark of `m'` at the same frame. -/
instance : LE (Marks nc nb) :=
  ⟨fun m m' => (∀ i d d' : Nat, m.cmark[i]? = some d → m'.cmark[i]? = some d' → d ≤ d') ∧
    ∀ j d d' : Nat, m.bmark[j]? = some d → m'.bmark[j]? = some d' → d ≤ d'⟩

theorem Marks.cmark_get (m : Marks nc nb) {i : Nat} (hi : i < nc) : ∃ d, m.cmark[i]? = some d :=
  ⟨_, List.getElem?_eq_getElem (lt_of_lt_of_eq hi m.hc.symm)⟩

theorem Marks.bmark_get (m : Marks nc nb) {j : Nat} (hj : j < nb) : ∃ d, m.bmark[j]? = some d :=
  ⟨_, List.getElem?_eq_getElem (lt_of_lt_of_eq hj m.hb.symm)⟩

theorem Marks.lt_of_cmark (m : Marks nc nb) {i d : Nat} (h : m.cmark[i]? = some d) : i < nc :=
  lt_of_lt_of_eq (List.getElem?_eq_some_iff.mp h).1 m.hc

theorem Marks.lt_of_bmark (m : Marks nc nb) {j d : Nat} (h : m.bmark[j]? = some d) : j < nb :=
  lt_of_lt_of_eq (List.getElem?_eq_some_iff.mp h).1 m.hb

/-- Lists of one length that agree wherever both have an entry. -/
theorem list_eq_of_get {l l' : List Nat} {n : Nat} (hl : l.length = n) (hl' : l'.length = n)
    (h : ∀ i d d' : Nat, l[i]? = some d → l'[i]? = some d' → d = d') : l = l' := by
  apply List.ext_getElem (hl.trans hl'.symm)
  intro i hi hi'
  exact h i _ _ (List.getElem?_eq_getElem hi) (List.getElem?_eq_getElem hi')

instance : PartialOrder (Marks nc nb) where
  le_refl m := by
    constructor
    · intro i d d' h h'
      rw [h, Option.some.injEq] at h'
      exact h'.le
    · intro j d d' h h'
      rw [h, Option.some.injEq] at h'
      exact h'.le
  le_trans m₁ m₂ m₃ h h' := by
    constructor
    · intro i d₁ d₃ h₁ h₃
      obtain ⟨d₂, h₂⟩ := m₂.cmark_get (m₁.lt_of_cmark h₁)
      exact (h.1 i d₁ d₂ h₁ h₂).trans (h'.1 i d₂ d₃ h₂ h₃)
    · intro j d₁ d₃ h₁ h₃
      obtain ⟨d₂, h₂⟩ := m₂.bmark_get (m₁.lt_of_bmark h₁)
      exact (h.2 j d₁ d₂ h₁ h₂).trans (h'.2 j d₂ d₃ h₂ h₃)
  le_antisymm m m' h h' := by
    apply Marks.ext
    · exact list_eq_of_get m.hc m'.hc fun i d d' hd hd' =>
        le_antisymm (h.1 i d d' hd hd') (h'.1 i d' d hd' hd)
    · exact list_eq_of_get m.hb m'.hb fun j d d' hd hd' =>
        le_antisymm (h.2 j d d' hd hd') (h'.2 j d' d hd' hd)

end Order

/-! ## When marks only improve -/

/-- No store of the log raises a mark. -/
def NeverRaises (nc nb : Nat) (log : List Write) : Prop :=
  ∀ w past, w :: past <:+ log → ∀ m m', replay nc nb past = some m →
    replay nc nb (w :: past) = some m' → m' ≤ m

/-- The differences assigned to `cmark[i]`. -/
def assignedC (log : List Write) (i : Nat) : List Nat :=
  log.filterMap fun
    | .cmark k d => if k = i then some d else none
    | .bmark _ _ => none

/-- The differences assigned to `bmark[j]`. -/
def assignedB (log : List Write) (j : Nat) : List Nat :=
  log.filterMap fun
    | .cmark _ _ => none
    | .bmark k d => if k = j then some d else none

/-- Throughout the main loop no mark is raised; a final mark is the least
difference ever assigned to its frame, or 255; and a base frame marked 0
at some moment keeps that mark. -/
def MarksOnlyImprove (er : EqualRange UInt64) (cf bf : List UInt64) : Prop :=
  ∃ r, markingRun cf bf er = some r ∧ NeverRaises cf.length bf.length r.log ∧
    (∀ i d : Nat, r.marks.cmark[i]? = some d → d = (assignedC r.log i).foldr min 255) ∧
    (∀ j d : Nat, r.marks.bmark[j]? = some d → d = (assignedB r.log j).foldr min 255) ∧
    ∀ past m (j : Nat), past <:+ r.log → replay cf.length bf.length past = some m →
      m.bmark[j]? = some 0 → r.marks.bmark[j]? = some 0

/-- Whenever a query frame is matched with the base frame of least
difference, that base frame is not marked better already. -/
def NearestNeverWorse (er : EqualRange UInt64) (cf bf : List UInt64) : Prop :=
  ∀ i (m : Marks cf.length bf.length) skipped diff p old, i < cf.length →
    FrameStart er i m skipped → LooksNearest er m skipped i diff p →
    m.bmark[p]? = some old → diff ≤ old

section Improve

variable {cf bf : List UInt64} {er : EqualRange UInt64}

/-- A store into `cmark` never raises the mark: what is unguarded stores 0
or the least difference there is. -/
theorem MarkStep.cmark_le {m : Marks cf.length bf.length} {i d old : Nat}
    (h : MarkStep er m (.cmark i d)) (hm : Witnessed cf bf m) (hold : m.cmark[i]? = some old) :
    d ≤ old := by
  have hsmall := h.cmark_differ.1
  cases h with
  | lowerC _ _ _ hc hlt =>
      rw [hold, Option.some.injEq] at hc
      omega
  | exactC _ _ => exact Nat.zero_le old
  | nearestC hn =>
      rcases hm.cmark i old hold with h255 | ⟨-, j, hj⟩
      · omega
      · exact hn.differ.2 j old hj

/-- A store into `bmark` raises the mark only at a match of least
difference. -/
theorem MarkStep.bmark_le {m : Marks cf.length bf.length} {j d old : Nat}
    (h : MarkStep er m (.bmark j d)) (hworse : NearestNeverWorse er cf bf)
    (hold : m.bmark[j]? = some old) : d ≤ old := by
  cases h with
  | lowerB _ _ _ hb hlt =>
      rw [hold, Option.some.injEq] at hb
      omega
  | exactB _ _ => exact Nat.zero_le old
  | nearestB hstart hn hold₀ hb =>
      obtain ⟨x, hx, -⟩ := hn.frame
      have hle := hworse _ _ _ _ _ _ (List.getElem?_eq_some_iff.mp hx).1 hstart hn hold₀
      rw [hold, Option.some.injEq] at hb
      omega

/-- A store of a value that is not above the old one lowers the marks. -/
theorem store_le {nc nb : Nat} {m m' : Marks nc nb} {w : Write} (hm' : m.store w = some m')
    (hc : ∀ i d old : Nat, w = .cmark i d → d < 256 ∧ (m.cmark[i]? = some old → d ≤ old))
    (hb : ∀ j d old : Nat, w = .bmark j d → d < 256 ∧ (m.bmark[j]? = some old → d ≤ old)) :
    m' ≤ m := by
  cases w with
  | cmark i d =>
      obtain ⟨hmc, hmb⟩ := store_cmark hm' (hc i d 0 rfl).1
      constructor
      · intro k e' e he' he
        rw [hmc] at he'
        rcases getElem?_set_cases he' with ⟨rfl, rfl⟩ | ⟨-, hsame⟩
        · exact (hc k e' e rfl).2 he
        · rw [he, Option.some.injEq] at hsame
          exact hsame.ge
      · intro k e' e he' he
        rw [hmb, he, Option.some.injEq] at he'
        exact he'.ge
  | bmark j d =>
      obtain ⟨hmc, hmb⟩ := store_bmark hm' (hb j d 0 rfl).1
      constructor
      · intro k e' e he' he
        rw [hmc, he, Option.some.injEq] at he'
        exact he'.ge
      · intro k e' e he' he
        rw [hmb] at he'
        rcases getElem?_set_cases he' with ⟨rfl, rfl⟩ | ⟨-, hsame⟩
        · exact (hb k e' e rfl).2 he
        · rw [he, Option.some.injEq] at hsame
          exact hsame.ge

theorem Explained.neverRaises {log : List Write} (h : Explained cf bf er log)
    (hworse : NearestNeverWorse er cf bf) : NeverRaises cf.length bf.length log := by
  intro w past hpast m m' hm hm'
  obtain ⟨m₁, hm₁, hw⟩ := h w past hpast
  rw [hm, Option.some.injEq] at hm₁
  subst hm₁
  obtain ⟨m₁, hm₁, hwit⟩ := h.witnessed past ((List.suffix_cons w past).trans hpast)
  rw [hm, Option.some.injEq] at hm₁
  subst hm₁
  apply store_le (replay_cons hm hm')
  · rintro i d old rfl
    have hd := hw.cmark_differ.1
    exact ⟨by omega, hw.cmark_le hwit⟩
  · rintro j d old rfl
    have hd := hw.bmark_differ.1
    exact ⟨by omega, hw.bmark_le hworse⟩

/-- In a log that raises nothing, the marks are the least values stored. -/
theorem NeverRaises.marks_eq {log : List Write} (hup : NeverRaises cf.length bf.length log)
    (hexp : Explained cf bf er log) {m : Marks cf.length bf.length}
    (hm : replay cf.length bf.length log = some m) :
    (∀ i d : Nat, m.cmark[i]? = some d → d = (assignedC log i).foldr min 255) ∧
    (∀ j d : Nat, m.bmark[j]? = some d → d = (assignedB log j).foldr min 255) := by
  induction log generalizing m with
  | nil =>
      cases hm
      constructor
      · intro i d hd
        exact List.eq_of_mem_replicate (List.mem_of_getElem? hd)
      · intro j d hd
        exact List.eq_of_mem_replicate (List.mem_of_getElem? hd)
  | cons w past ih =>
      have hsuffix := List.suffix_cons w past
      obtain ⟨m₀, hm₀, hw⟩ := hexp w past (List.suffix_refl _)
      obtain ⟨ihc, ihb⟩ := ih (fun w' p hp => hup w' p (hp.trans hsuffix))
        (fun w' p hp => hexp w' p (hp.trans hsuffix)) hm₀
      obtain ⟨hrc, hrb⟩ := hup w past (List.suffix_refl _) m₀ m hm₀ hm
      have hstore := replay_cons hm₀ hm
      cases w with
      | cmark i d =>
          have hd := hw.cmark_differ.1
          obtain ⟨hmc, hmb⟩ := store_cmark hstore (by omega)
          constructor
          · intro k e he
            have hset := hmc ▸ he
            rcases getElem?_set_cases hset with ⟨rfl, rfl⟩ | ⟨hne, hsame⟩
            · have hlt : k < m₀.cmark.length := by
                have := (List.getElem?_eq_some_iff.mp hset).1
                simpa using this
              have hle := hrc k e _ he (List.getElem?_eq_getElem hlt)
              have hold := ihc k _ (List.getElem?_eq_getElem hlt)
              simp only [assignedC, List.filterMap_cons, if_true, List.foldr_cons] at hold ⊢
              omega
            · simpa [assignedC, Ne.symm hne] using ihc k e hsame
          · intro k e he
            rw [hmb] at he
            simpa [assignedB] using ihb k e he
      | bmark j d =>
          have hd := hw.bmark_differ.1
          obtain ⟨hmc, hmb⟩ := store_bmark hstore (by omega)
          constructor
          · intro k e he
            rw [hmc] at he
            simpa [assignedC] using ihc k e he
          · intro k e he
            have hset := hmb ▸ he
            rcases getElem?_set_cases hset with ⟨rfl, rfl⟩ | ⟨hne, hsame⟩
            · have hlt : k < m₀.bmark.length := by
                have := (List.getElem?_eq_some_iff.mp hset).1
                simpa using this
              have hle := hrb k e _ he (List.getElem?_eq_getElem hlt)
              have hold := ihb k _ (List.getElem?_eq_getElem hlt)
              simp only [assignedB, List.filterMap_cons, if_true, List.foldr_cons] at hold ⊢
              omega
            · simpa [assignedB, Ne.symm hne] using ihb k e hsame

/-- In a log that raises nothing, a base frame marked 0 stays so. -/
theorem NeverRaises.keeps_zero {log past : List Write} (hup : NeverRaises cf.length bf.length log)
    (hexp : Explained cf bf er log) (hpast : past <:+ log)
    {m m₀ : Marks cf.length bf.length} {j : Nat}
    (hm₀ : replay cf.length bf.length past = some m₀) (hzero : m₀.bmark[j]? = some 0)
    (hm : replay cf.length bf.length log = some m) : m.bmark[j]? = some 0 := by
  obtain ⟨newer, rfl⟩ := hpast
  induction newer generalizing m with
  | nil =>
      rw [List.nil_append, hm₀, Option.some.injEq] at hm
      exact hm ▸ hzero
  | cons w newer ih =>
      have hsuffix : newer ++ past <:+ w :: newer ++ past := List.suffix_cons w _
      obtain ⟨m₁, hm₁, -⟩ := hexp w (newer ++ past) (List.suffix_refl _)
      have hz := ih (fun w' p hp => hup w' p (hp.trans hsuffix))
        (fun w' p hp => hexp w' p (hp.trans hsuffix)) hm₁
      have hj : j < m.bmark.length := by
        have := (List.getElem?_eq_some_iff.mp hz).1
        rw [m.hb]
        rwa [m₁.hb] at this
      have hget := List.getElem?_eq_getElem hj
      have hle := (hup w (newer ++ past) (List.suffix_refl _) m₁ m hm₁ hm).2 j _ 0 hget hz
      rw [Nat.le_zero] at hle
      rw [hget, hle]

variable (cf bf er)

/-- The log of the first `k` frames holds the unguarded store of every
match of least difference among them: it meets the smaller of the
difference and the mark the base frame came with. -/
def LogsNearest (k : Nat) (log : List Write) : Prop :=
  ∀ i (m : Marks cf.length bf.length) skipped diff p old, i < k →
    FrameStart er i m skipped → LooksNearest er m skipped i diff p → m.bmark[p]? = some old →
    ∃ past m', .bmark p diff :: past <:+ log ∧
      replay cf.length bf.length past = some m' ∧ m'.bmark[p]? = some (min diff old)

theorem markingRun_logsNearest :
    ∃ r, markingRun cf bf er = some r ∧ Explained cf bf er r.log ∧
      LogsNearest cf bf er cf.length r.log := by
  apply markingRun_rule (P := fun k r => LogsNearest cf bf er k r.log)
  · intro i m skipped diff p old hi
    exact absurd hi (Nat.not_lt_zero i)
  · intro k skipped r r' hstart hcont hout hlogs i m skipped' diff p old hi hm hn hold
    rcases Nat.lt_succ_iff_lt_or_eq.mp hi with hlt | heq
    · -- an earlier frame: its stores are still there
      obtain ⟨past, m', hsuffix, hrest⟩ := hlogs i m skipped' diff p old hlt hm hn hold
      exact ⟨past, m', hsuffix.trans hcont.suffix, hrest⟩
    · subst heq
      rw [FrameStart] at hm hstart
      rw [hstart, Option.some.injEq, Prod.mk.injEq] at hm
      obtain ⟨rfl, rfl⟩ := hm
      cases hout with
      | kept _ hnot => exact absurd hn (hnot diff p)
      | exact hnot _ _ _ => exact absurd hn (hnot diff p)
      | nearest hn' hold' hmin hlog hcont' =>
          -- the search has one answer
          obtain ⟨x, hx, -, hfound⟩ := hn.frame
          obtain ⟨x', hx', -, hfound'⟩ := hn'.frame
          rw [hx, Option.some.injEq] at hx'
          subst hx'
          rw [hfound, Option.some.injEq, Prod.mk.injEq] at hfound'
          obtain ⟨rfl, rfl⟩ := hfound'
          rw [hold, Option.some.injEq] at hold'
          subst hold'
          exact ⟨_, _, hlog ▸ hcont'.suffix, Run.replayed _, hmin⟩

/-- In a loop that raises no mark, no frame of least difference was marked
better already. -/
theorem nearestNeverWorse_of_neverRaises {log : List Write}
    (hlogs : LogsNearest cf bf er cf.length log)
    (hexp : Explained cf bf er log)
    (hup : NeverRaises cf.length bf.length log) : NearestNeverWorse er cf bf := by
  intro i m skipped diff p old hi hm hn hold
  obtain ⟨past, m', hsuffix, hm', hmin⟩ := hlogs i m skipped diff p old hi hm hn hold
  obtain ⟨m₁, hm₁, hw⟩ := hexp _ past hsuffix
  rw [hm', Option.some.injEq] at hm₁
  subst hm₁
  obtain ⟨m'', hm''⟩ := hw.stores
  have hreplay : replay cf.length bf.length (.bmark p diff :: past) = some m'' := by
    rw [replay, hm', Option.bind_some, hm'']
  have hsmall := hw.bmark_differ.1
  have hset := (store_bmark hm'' (by omega)).2
  have hnew : m''.bmark[p]? = some diff := by
    rw [hset, List.getElem?_set_self (List.getElem?_eq_some_iff.mp hmin).1]
  have hle := (hup _ past hsuffix m' m'' hm' hreplay).2 p _ _ hnew hmin
  omega

/-- Marks only improve exactly in the loops in which no base frame that is
taken for its least difference is marked better already. -/
theorem marks_only_improve_iff :
    MarksOnlyImprove er cf bf ↔ NearestNeverWorse er cf bf := by
  obtain ⟨r, hr, hexp, hlogs⟩ := markingRun_logsNearest cf bf er
  constructor
  · intro h
    obtain ⟨r', hr', hup, -⟩ := h
    obtain rfl : r = r' := Option.some.inj (hr.symm.trans hr')
    exact nearestNeverWorse_of_neverRaises cf bf er hlogs hexp hup
  · intro hworse
    have hup := hexp.neverRaises hworse
    obtain ⟨hc, hb⟩ := hup.marks_eq hexp r.replayed
    exact ⟨r, hr, hup, hc, hb, fun past m j hpast hm hzero =>
      hup.keeps_zero hexp hpast hm hzero r.replayed⟩

/-- The first frame of the query is the only frame of the base, the second
differs from it in one bit: the base frame loses its exact match. -/
theorem marks_raised_example : ¬ MarksOnlyImprove default [1, 3] [1] := by
  intro h
  obtain ⟨r, hr, hexp, hlogs⟩ := markingRun_logsNearest [1, 3] [1] default
  obtain ⟨r', hr', hup, -⟩ := h
  obtain rfl : r = r' := Option.some.inj (hr.symm.trans hr')
  have hworse := nearestNeverWorse_of_neverRaises [1, 3] [1] default hlogs hexp hup
  have hstart : @FrameStart [1, 3] [1] default 1
      ⟨[0, 255], [0], rfl, rfl⟩ 0 := by
    rfl
  have hn : @LooksNearest [1, 3] [1] default ⟨[0, 255], [0], rfl, rfl⟩ 0 1 1 0 :=
    ⟨⟨255, rfl, by decide⟩, ⟨3, rfl, by decide, by decide +kernel⟩, by decide, by decide⟩
  have hle := hworse 1 _ 0 1 0 0 (by decide) hstart hn rfl
  exact absurd hle (by decide)

end Improve

/-! ## Exact matches -/

section Exact

variable {cf bf : List UInt64} {er : EqualRange UInt64}

/-- Query frame `i` is well matched. -/
def GoodAt {nc nb : Nat} (i : Nat) (m : Marks nc nb) : Prop :=
  ∃ d : Nat, m.cmark[i]? = some d ∧ d < GOOD_BITS

/-- Only a frame whose hash does not occur in the base is matched with the
frame of least difference. -/
theorem LooksNearest.not_mem {m : Marks cf.length bf.length} {skipped i diff p : Nat}
    (h : LooksNearest er m skipped i diff p) {x : UInt64} (hx : cf[i]? = some x) : x ∉ bf := by
  intro hmem
  obtain ⟨x', hx', hcount, -⟩ := h.frame
  rw [hx, Option.some.injEq] at hx'
  subst hx'
  obtain ⟨j, hj⟩ := List.mem_iff_getElem?.mp hmem
  have hpos := List.length_pos_of_mem (er.mem_range.mpr hj)
  rw [EqualRange.count] at hcount
  omega

/-- A well matched frame whose hash occurs in the base stays well matched:
only a frame without that hash is taken for its least difference. -/
theorem GoodAt.store {m m' : Marks cf.length bf.length} {w : Write} {i : Nat} {x : UInt64}
    (hx : cf[i]? = some x) (hmem : x ∈ bf) (hw : MarkStep er m w) (hm' : m.store w = some m')
    (h : GoodAt i m) : GoodAt i m' := by
  obtain ⟨d, hd, hgood⟩ := h
  have hi : i < m.cmark.length := (List.getElem?_eq_some_iff.mp hd).1
  cases w with
  | bmark j e =>
      have he := hw.bmark_differ.1
      rw [GoodAt, (store_bmark hm' (by omega)).1]
      exact ⟨d, hd, hgood⟩
  | cmark k e =>
      have he := hw.cmark_differ.1
      rw [GoodAt, (store_cmark hm' (by omega)).1]
      by_cases hki : k = i
      · subst hki
        refine ⟨e, List.getElem?_set_self hi, ?_⟩
        cases hw with
        | lowerC _ _ _ hold hlt =>
            rw [hd, Option.some.injEq] at hold
            omega
        | exactC _ _ => exact Nat.zero_lt_of_lt hgood
        | nearestC hn =>
            exact absurd hmem (hn.not_mem hx)
      · exact ⟨d, by rw [List.getElem?_set_ne hki]; exact hd, hgood⟩

theorem Continues.goodAt {r r' : Run cf.length bf.length} (h : Continues er r r') {i : Nat}
    {x : UInt64} (hx : cf[i]? = some x) (hmem : x ∈ bf) (hr : GoodAt i r.marks) :
    GoodAt i r'.marks :=
  h.invariant hr fun _ _ _ hw hm' hm => hm.store hx hmem hw hm'

/-- After its turn a frame whose hash occurs in the base is well matched. -/
theorem FrameOutcome.goodAt {skipped i : Nat} {r r' : Run cf.length bf.length}
    (h : FrameOutcome er skipped r i r') {x : UInt64} (hx : cf[i]? = some x) (hmem : x ∈ bf) :
    GoodAt i r'.marks := by
  have hi : i < r.marks.cmark.length := r.marks.hc.symm ▸ (List.getElem?_eq_some_iff.mp hx).1
  cases h with
  | kept hkept _ =>
      have hd := List.getElem?_eq_getElem hi
      rcases hkept _ x hd hx with hgood | hnot
      · exact ⟨_, hd, hgood⟩
      · exact absurd hmem hnot
  | @exact p r₁ r₂ _ _ hlog₁ hlog₂ hcont =>
      -- `cmark[i]` is 0 after the first store, and the second is to `bmark`
      have hr₁ := r₁.replayed
      have hr₂ := r₂.replayed
      rw [hlog₁] at hr₁
      rw [hlog₂] at hr₂
      have hc₁ := (store_cmark (replay_cons r.replayed hr₁) (by omega)).1
      rw [hlog₁] at hr₂
      have hc₂ := (store_bmark (replay_cons hr₁ hr₂) (by omega)).1
      apply hcont.goodAt hx hmem
      refine ⟨0, ?_, by decide⟩
      rw [hc₂, hc₁, List.getElem?_set_self hi]
  | nearest hn _ _ _ _ =>
      exact absurd hmem (hn.not_mem hx)

/-! ## Marks on the other side -/

/-- Some base frame is marked. -/
def SomeBase {nc nb : Nat} (m : Marks nc nb) : Prop :=
  ∃ j d : Nat, m.bmark[j]? = some d ∧ d ≠ 255

theorem SomeBase.store {m m' : Marks cf.length bf.length} {w : Write} (hw : MarkStep er m w)
    (hm' : m.store w = some m') (h : SomeBase m) : SomeBase m' := by
  obtain ⟨j, d, hd, hne⟩ := h
  cases w with
  | cmark k e =>
      have he := hw.cmark_differ.1
      rw [SomeBase, (store_cmark hm' (by omega)).2]
      exact ⟨j, d, hd, hne⟩
  | bmark k e =>
      have he := hw.bmark_differ.1
      rw [SomeBase, (store_bmark hm' (by omega)).2]
      by_cases hkj : k = j
      · subst hkj
        exact ⟨k, e, List.getElem?_set_self (List.getElem?_eq_some_iff.mp hd).1, by omega⟩
      · exact ⟨j, d, by rw [List.getElem?_set_ne hkj]; exact hd, hne⟩

/-- A store into `bmark` marks a base frame. -/
theorem Continues.someBase {r₁ r₂ r' : Run cf.length bf.length} {p d : Nat}
    (h : Continues er r₂ r') (hlog : r₂.log = .bmark p d :: r₁.log) : SomeBase r'.marks := by
  refine h.invariant (G := SomeBase) ?_ fun _ _ _ hw hm' hm => hm.store hw hm'
  obtain ⟨m, hm, hw⟩ := h.explained (.bmark p d) r₁.log (hlog ▸ h.suffix)
  obtain rfl : r₁.marks = m := Option.some.inj (r₁.replayed.symm.trans hm)
  have hr₂ := r₂.replayed
  rw [hlog] at hr₂
  have hstore := replay_cons r₁.replayed hr₂
  have hd := hw.bmark_differ.1
  have hp : p < r₁.marks.bmark.length := by
    rw [Marks.store, Marks.setB] at hstore
    split at hstore
    · next hlt => exact r₁.marks.hb.symm ▸ hlt
    · cases hstore
  refine ⟨p, d, ?_, by omega⟩
  rw [(store_bmark hstore (by omega)).2, List.getElem?_set_self hp]

variable (cf bf er)

/-- When the loop ends, every query frame whose hash occurs in the base is
well matched, and a marked query frame comes with a marked base frame. -/
theorem finalMarks_exact :
    ∃ m, finalMarks cf bf er = some m ∧ Witnessed cf bf m ∧
      (∀ i x, cf[i]? = some x → x ∈ bf → GoodAt i m) ∧
      ((∃ i d : Nat, m.cmark[i]? = some d ∧ d ≠ 255) → SomeBase m) := by
  obtain ⟨r, hr, hexp, hgood, hpair⟩ := markingRun_rule cf bf er
    (P := fun k r => (∀ i x, i < k → cf[i]? = some x → x ∈ bf → GoodAt i r.marks) ∧
      ((∃ i d : Nat, r.marks.cmark[i]? = some d ∧ d ≠ 255) → SomeBase r.marks))
    (by
      constructor
      · intro i x hi
        exact absurd hi (Nat.not_lt_zero i)
      · intro h
        obtain ⟨i, d, hd, hne⟩ := h
        exact absurd (List.eq_of_mem_replicate (List.mem_of_getElem? hd)) hne)
    (by
      intro k skipped r r' _ hcont hout hP
      obtain ⟨hgood, hpair⟩ := hP
      constructor
      · intro i x hi hx hmem
        rcases Nat.lt_succ_iff_lt_or_eq.mp hi with hlt | heq
        · exact hcont.goodAt hx hmem (hgood i x hlt hx hmem)
        · subst heq
          exact hout.goodAt hx hmem
      · cases hout with
        | kept _ _ => exact hpair
        | exact _ _ hlog hcont' => exact fun _ => hcont'.someBase hlog
        | nearest _ _ _ hlog hcont' => exact fun _ => hcont'.someBase hlog)
  exact ⟨r.marks, finalMarks_of_run cf bf hr, hexp.witnessed_marks,
    fun i x hx hmem => hgood i x (List.getElem?_eq_some_iff.mp hx).1 hx hmem, hpair⟩

end Exact

end VideoMatch.Server
