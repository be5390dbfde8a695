/-
VideoMatch.Server.MarkingRun — the marking loop with a log of its stores.

The main loop of `check_candidate` leaves two vectors of marks behind;
what they held on the way is lost. A `Run` keeps, beside the marks, the
list of all stores so far, the newest first, so the marks at any moment of
the loop are what a suffix of the log replays to. The functions of this
module are those of `CheckCandidate` on runs: same loops, same order.
`markingRun_marks` says that forgetting the log gives the loop back.

`MarkStep` lists the stores the loop can make, each with what the code
knows there, and `FrameOutcome` what one frame can do. `markingRun_rule` says
that the loop always ends and makes no other stores, and is its induction
principle over the frames; invariants of all moments of the loop are
inductions over the log.
-/
import VideoMatch.Server.DiffTheorems
import VideoMatch.Server.CheckCandidateTheorems

namespace VideoMatch.Server

open VideoMatch.Cxx

/-! ## Runs -/

/-- A store into one of the two vectors. -/
inductive Write where
  | cmark (i d : Nat)
  | bmark (j d : Nat)
  deriving DecidableEq, Repr

section

variable {nc nb : Nat}

/-- Make one store. -/
def Marks.store (m : Marks nc nb) : Write → Option (Marks nc nb)
  | .cmark i d => m.setC i d
  | .bmark j d => m.setB j d

/-- The marks after the stores of a log, the newest first. -/
def replay (nc nb : Nat) : List Write → Option (Marks nc nb)
  | [] => some (Marks.init nc nb)
  | w :: past => (replay nc nb past).bind fun m => m.store w

/-- The marks at some moment of the loop, and all stores made so far. -/
@[ext] structure Run (nc nb : Nat) where
  marks : Marks nc nb
  log : List Write
  replayed : replay nc nb log = some marks

namespace Run

/-- Before the first store. -/
def start (nc nb : Nat) : Run nc nb := ⟨Marks.init nc nb, [], rfl⟩

def write (r : Run nc nb) (w : Write) : Option (Run nc nb) :=
  match h : r.marks.store w with
  | none => none
  | some m => some ⟨m, w :: r.log, by rw [replay, r.replayed]; exact h⟩

/-- `if (d < cmark[i]) cmark[i] = d`. -/
def lowerC (r : Run nc nb) (i d : Nat) : Option (Run nc nb) := do
  let old ← r.marks.cmark[i]?
  if d < old then r.write (.cmark i d) else some r

/-- `if (d < bmark[i]) bmark[i] = d`. -/
def lowerB (r : Run nc nb) (i d : Nat) : Option (Run nc nb) := do
  let old ← r.marks.bmark[i]?
  if d < old then r.write (.bmark i d) else some r

end Run

end

/-! ## The loop on runs -/

section

variable (cf bf : List UInt64)

/-- `checkPair` with a log. -/
def checkPairRun (r : Run cf.length bf.length) (c b : Nat) :
    Option (Flow (Run cf.length bf.length)) := do
  let x ← cf[c]?
  let y ← bf[b]?
  let d := diffBits x y
  if d > STOP_CHECK_BITS then
    some (.brk r)
  else do
    let r ← r.lowerC c d
    let r ← r.lowerB b d
    some (.next r)

/-- `checkRange` with a log. -/
def checkRangeRun (cpos bpos : Nat) (r : Run cf.length bf.length) :
    Option (Run cf.length bf.length) := do
  let r ← forBreak (fun r j => checkPairRun cf bf r (cpos + j) (bpos + j))
    (List.range' 1 (min (cf.length - cpos) (bf.length - bpos) - 1)) r
  forBreak (fun r j => checkPairRun cf bf r (cpos - j) (bpos - j))
    (List.range' 1 (min cpos bpos)) r

/-- `visitMatch` with a log. -/
def visitMatchRun (i : Nat) (r : Run cf.length bf.length) (p : Nat) :
    Option (Run cf.length bf.length) := do
  let old ← r.marks.bmark[p]?
  let r ← r.write (.bmark p 0)
  if old < GOOD_BITS then some r else checkRangeRun cf bf i p r

/-- `checkFrame` with a log. -/
def checkFrameRun (er : EqualRange UInt64) (st : Run cf.length bf.length × Nat) (i : Nat) :
    Option (Run cf.length bf.length × Nat) := do
  let (r, skipped) := st
  let mark ← r.marks.cmark[i]?
  if mark < GOOD_BITS then
    some (r, skipped)
  else do
    let h ← cf[i]?
    if er.count bf h > 0 then do
      let r ← r.write (.cmark i 0)
      let r ← (er.range bf h).foldlM (visitMatchRun cf bf i) r
      some (r, skipped)
    else if skipped + 1 < cf.length / SKIP_SPLIT_PARTS then
      some (r, skipped + 1)
    else do
      let (diff, mdfPos) ← minDiffBits h bf 0 bf.length 0
      if diff > CHECK_BITS then
        some (r, 0)
      else do
        let r ← r.lowerB mdfPos diff
        let r ← r.write (.bmark mdfPos diff)
        let r ← r.write (.cmark i diff)
        let r ← checkRangeRun cf bf i mdfPos r
        some (r, 0)

/-- The whole main loop. -/
def markingRun (er : EqualRange UInt64) : Option (Run cf.length bf.length) := do
  let st ← (List.range cf.length).foldlM (checkFrameRun cf bf er) (Run.start _ _, 0)
  some st.1

end

/-! ## Forgetting the log -/

section Forget

variable {nc nb : Nat}

theorem Run.write_marks (r : Run nc nb) (w : Write) :
    (r.write w).map Run.marks = r.marks.store w := by
  unfold Run.write
  split
  · next h => exact h.symm
  · next m h => exact h.symm

theorem Run.lowerC_marks (r : Run nc nb) (i d : Nat) :
    (r.lowerC i d).map Run.marks = r.marks.lowerC i d := by
  unfold Run.lowerC Marks.lowerC
  cases r.marks.cmark[i]? with
  | none => rfl
  | some old =>
      simp only [Option.bind_eq_bind, Option.bind_some]
      split
      · exact r.write_marks _
      · rfl

theorem Run.lowerB_marks (r : Run nc nb) (i d : Nat) :
    (r.lowerB i d).map Run.marks = r.marks.lowerB i d := by
  unfold Run.lowerB Marks.lowerB
  cases r.marks.bmark[i]? with
  | none => rfl
  | some old =>
      simp only [Option.bind_eq_bind, Option.bind_some]
      split
      · exact r.write_marks _
      · rfl

/-- A step on runs followed by more, seen on the marks. -/
theorem map_bind_marks {β γ : Type} {a : Option (Run nc nb)} {a' : Option (Marks nc nb)}
    {k : Run nc nb → Option β} {k' : Marks nc nb → Option γ} {g : β → γ}
    (ha : a.map Run.marks = a') (hk : ∀ r, (k r).map g = k' r.marks) :
    (a.bind k).map g = a'.bind k' := by
  subst ha
  cases a with
  | none => rfl
  | some r => exact hk r

variable (cf bf : List UInt64)

theorem checkPairRun_marks (r : Run cf.length bf.length) (c b : Nat) :
    (checkPairRun cf bf r c b).map (Flow.map Run.marks) = checkPair cf bf r.marks c b := by
  unfold checkPairRun checkPair
  cases cf[c]? with
  | none => rfl
  | some x =>
  cases bf[b]? with
  | none => rfl
  | some y =>
  simp only [Option.bind_eq_bind, Option.bind_some]
  split
  · rfl
  · apply map_bind_marks (r.lowerC_marks c _)
    intro r
    apply map_bind_marks (r.lowerB_marks b _)
    intro r
    rfl

theorem checkRangeRun_marks (cpos bpos : Nat) (r : Run cf.length bf.length) :
    (checkRangeRun cf bf cpos bpos r).map Run.marks = checkRange cf bf cpos bpos r.marks := by
  unfold checkRangeRun checkRange
  apply map_bind_marks
  · exact forBreak_map_state Run.marks (fun r j => checkPairRun_marks cf bf r _ _) _ r
  · intro r
    exact forBreak_map_state Run.marks (fun r j => checkPairRun_marks cf bf r _ _) _ r

theorem visitMatchRun_marks (i : Nat) (r : Run cf.length bf.length) (p : Nat) :
    (visitMatchRun cf bf i r p).map Run.marks = visitMatch cf bf i r.marks p := by
  unfold visitMatchRun visitMatch
  cases r.marks.bmark[p]? with
  | none => rfl
  | some old =>
      simp only [Option.bind_eq_bind, Option.bind_some]
      apply map_bind_marks (r.write_marks (.bmark p 0))
      intro r
      split
      · rfl
      · exact checkRangeRun_marks cf bf i p r

theorem checkFrameRun_marks (er : EqualRange UInt64) (st : Run cf.length bf.length × Nat)
    (i : Nat) : (checkFrameRun cf bf er st i).map (Prod.map Run.marks id)
      = checkFrame cf bf er (st.1.marks, st.2) i := by
  obtain ⟨r, skipped⟩ := st
  unfold checkFrameRun checkFrame
  simp only
  cases r.marks.cmark[i]? with
  | none => rfl
  | some mark =>
  simp only [Option.bind_eq_bind, Option.bind_some]
  split
  · rfl
  cases cf[i]? with
  | none => rfl
  | some h =>
  simp only [Option.bind_some]
  split
  · apply map_bind_marks (r.write_marks (.cmark i 0))
    intro r
    apply map_bind_marks
      (foldlM_map_state Run.marks (fun r p => visitMatchRun_marks cf bf i r p) _ r)
    intro r
    rfl
  split
  · rfl
  cases minDiffBits h bf 0 bf.length 0 with
  | none => rfl
  | some found =>
  simp only [Option.bind_some]
  split
  · rfl
  · apply map_bind_marks (r.lowerB_marks found.2 found.1)
    intro r
    apply map_bind_marks (r.write_marks (.bmark found.2 found.1))
    intro r
    apply map_bind_marks (r.write_marks (.cmark i found.1))
    intro r
    apply map_bind_marks (checkRangeRun_marks cf bf i found.2 r)
    intro r
    rfl

theorem markingRun_marks (er : EqualRange UInt64) :
    (markingRun cf bf er).map Run.marks = finalMarks cf bf er := by
  have hfold := foldlM_map_state (Prod.map Run.marks id)
    (fun st i => checkFrameRun_marks cf bf er st i) (List.range cf.length) (Run.start _ _, 0)
  unfold markingRun finalMarks
  have hst : Prod.map Run.marks id (Run.start cf.length bf.length, 0)
      = (Marks.init cf.length bf.length, 0) := rfl
  rw [hst] at hfold
  rw [Option.bind_eq_bind, Option.bind_eq_bind, ← hfold]
  cases (List.range cf.length).foldlM (checkFrameRun cf bf er) (Run.start _ _, 0) with
  | none => rfl
  | some st => rfl

/-- The marks after a run are the marks after the loop. -/
theorem finalMarks_of_run {er : EqualRange UInt64} {r : Run cf.length bf.length}
    (hr : markingRun cf bf er = some r) : finalMarks cf bf er = some r.marks := by
  rw [← markingRun_marks, hr, Option.map_some]

end Forget

/-! ## What the stores are -/

section Explained

variable {cf bf : List UInt64} (er : EqualRange UInt64)

/-- The marks `m`, and the number of frames skipped since the last search,
when the loop comes to frame `i`. -/
def FrameStart (i : Nat) (m : Marks cf.length bf.length) (skipped : Nat) : Prop :=
  (List.range i).foldlM (checkFrame cf bf er) (Marks.init _ _, 0) = some (m, skipped)

/-- Frame `i` has no match of its own hash and it is its turn to be
matched with the frame of least difference: frame `p` of the base, which
differs in `diff` bits. -/
structure LooksNearest (m : Marks cf.length bf.length) (skipped i diff p : Nat) : Prop where
  mark : ∃ d : Nat, m.cmark[i]? = some d ∧ GOOD_BITS ≤ d
  frame : ∃ x, cf[i]? = some x ∧ er.count bf x = 0 ∧
    minDiffBits x bf 0 bf.length 0 = some (diff, p)
  turn : cf.length / SKIP_SPLIT_PARTS ≤ skipped + 1
  near : diff ≤ CHECK_BITS

/-- The stores of the loop. Two are guarded minima, two record a match of
equal hashes, and two a match of least difference: frame `i` comes to it
with the marks `m₀`, and the guarded store just before them is behind the
`min`. -/
inductive MarkStep (m : Marks cf.length bf.length) : Write → Prop where
  | lowerC {c b old : Nat} {x y : UInt64} : cf[c]? = some x → bf[b]? = some y →
      diffBits x y ≤ STOP_CHECK_BITS → m.cmark[c]? = some old → diffBits x y < old →
      MarkStep m (.cmark c (diffBits x y))
  | lowerB {c b old : Nat} {x y : UInt64} : cf[c]? = some x → bf[b]? = some y →
      diffBits x y ≤ STOP_CHECK_BITS → m.bmark[b]? = some old → diffBits x y < old →
      MarkStep m (.bmark b (diffBits x y))
  | exactC {i p : Nat} {x : UInt64} : cf[i]? = some x → bf[p]? = some x →
      MarkStep m (.cmark i 0)
  | exactB {i p : Nat} {x : UInt64} : cf[i]? = some x → bf[p]? = some x →
      MarkStep m (.bmark p 0)
  | nearestB {m₀ : Marks cf.length bf.length} {skipped i diff p old : Nat} :
      FrameStart er i m₀ skipped → LooksNearest er m₀ skipped i diff p →
      m₀.bmark[p]? = some old → m.bmark[p]? = some (min diff old) →
      MarkStep m (.bmark p diff)
  | nearestC {m₀ : Marks cf.length bf.length} {skipped i diff p : Nat} :
      LooksNearest er m₀ skipped i diff p → MarkStep m (.cmark i diff)

/-- Every store of the log is one of the loop's. -/
def Explained (cf bf : List UInt64) (er : EqualRange UInt64) (log : List Write) : Prop :=
  ∀ w past, w :: past <:+ log →
    ∃ m : Marks cf.length bf.length, replay cf.length bf.length past = some m ∧ MarkStep er m w

variable {er}

theorem MarkStep.stores {m : Marks cf.length bf.length} {w : Write} (h : MarkStep er m w) :
    ∃ m', m.store w = some m' := by
  have hcmark : ∀ {i d : Nat}, i < cf.length → ∃ m', m.store (.cmark i d) = some m' := by
    intro i d hi
    exact ⟨_, if_pos hi⟩
  have hbmark : ∀ {j d : Nat}, j < bf.length → ∃ m', m.store (.bmark j d) = some m' := by
    intro j d hj
    exact ⟨_, if_pos hj⟩
  have hlt : ∀ {l : List UInt64} {i : Nat} {x : UInt64}, l[i]? = some x → i < l.length := by
    intro l i x hx
    exact (List.getElem?_eq_some_iff.mp hx).1
  cases h with
  | lowerC hx _ _ _ _ => exact hcmark (hlt hx)
  | lowerB _ hy _ _ _ => exact hbmark (hlt hy)
  | exactC hx _ => exact hcmark (hlt hx)
  | exactB _ hp => exact hbmark (hlt hp)
  | nearestB _ _ _ hp => exact hbmark (m.hb ▸ (List.getElem?_eq_some_iff.mp hp).1)
  | nearestC hn =>
      obtain ⟨x, hx, -⟩ := hn.frame
      exact hcmark (hlt hx)

theorem explained_nil : Explained cf bf er [] := by
  intro w past h
  simp at h

/-- `r` has made the stores of `r₀` and more, each of them one of the
loop's. -/
structure Continues (er : EqualRange UInt64) (r₀ r : Run cf.length bf.length) : Prop where
  suffix : r₀.log <:+ r.log
  explained : Explained cf bf er r.log

theorem Continues.trans {r₀ r₁ r₂ : Run cf.length bf.length} (h₁ : Continues er r₀ r₁)
    (h₂ : Continues er r₁ r₂) : Continues er r₀ r₂ :=
  ⟨h₁.suffix.trans h₂.suffix, h₂.explained⟩

/-- One store of the loop. -/
theorem Continues.write {r₀ r : Run cf.length bf.length} (hr : Continues er r₀ r) {w : Write}
    (hstep : MarkStep er r.marks w) :
    ∃ r', r.write w = some r' ∧ r'.log = w :: r.log ∧ Continues er r₀ r' := by
  obtain ⟨m, hm⟩ := hstep.stores
  have hmarks := r.write_marks w
  rw [hm, Option.map_eq_some_iff] at hmarks
  obtain ⟨r', hr', -⟩ := hmarks
  have hlog : r'.log = w :: r.log := by
    unfold Run.write at hr'
    split at hr'
    · cases hr'
    · cases hr'
      rfl
  refine ⟨r', hr', hlog, ?_, ?_⟩
  · rw [hlog]
    exact hr.suffix.trans (List.suffix_cons w r.log)
  · intro w' past hpast
    rw [hlog, List.suffix_cons_iff] at hpast
    rcases hpast with heq | hold
    · obtain ⟨rfl, rfl⟩ := List.cons.inj heq
      exact ⟨r.marks, r.replayed, hstep⟩
    · exact hr.explained w' past hold

theorem Continues.lowerC {r₀ r : Run cf.length bf.length} (hr : Continues er r₀ r) {c b : Nat}
    {x y : UInt64} (hx : cf[c]? = some x) (hy : bf[b]? = some y)
    (hle : diffBits x y ≤ STOP_CHECK_BITS) :
    ∃ r', r.lowerC c (diffBits x y) = some r' ∧ Continues er r₀ r' := by
  have hc : c < r.marks.cmark.length := r.marks.hc.symm ▸ (List.getElem?_eq_some_iff.mp hx).1
  have hold : r.marks.cmark[c]? = some (r.marks.cmark.get ⟨c, hc⟩) := List.getElem?_eq_getElem hc
  simp only [Run.lowerC, hold, Option.bind_eq_bind, Option.bind_some]
  split
  · next hlt =>
      obtain ⟨r', hr', -, hcont⟩ := hr.write (.lowerC hx hy hle hold hlt)
      exact ⟨r', hr', hcont⟩
  · exact ⟨r, rfl, hr⟩

theorem Continues.lowerB {r₀ r : Run cf.length bf.length} (hr : Continues er r₀ r) {c b : Nat}
    {x y : UInt64} (hx : cf[c]? = some x) (hy : bf[b]? = some y)
    (hle : diffBits x y ≤ STOP_CHECK_BITS) :
    ∃ r', r.lowerB b (diffBits x y) = some r' ∧ Continues er r₀ r' := by
  have hb : b < r.marks.bmark.length := r.marks.hb.symm ▸ (List.getElem?_eq_some_iff.mp hy).1
  have hold : r.marks.bmark[b]? = some (r.marks.bmark.get ⟨b, hb⟩) := List.getElem?_eq_getElem hb
  simp only [Run.lowerB, hold, Option.bind_eq_bind, Option.bind_some]
  split
  · next hlt =>
      obtain ⟨r', hr', -, hcont⟩ := hr.write (.lowerB hx hy hle hold hlt)
      exact ⟨r', hr', hcont⟩
  · exact ⟨r, rfl, hr⟩

theorem Continues.checkPair {r₀ r : Run cf.length bf.length} (hr : Continues er r₀ r) {c b : Nat}
    (hc : c < cf.length) (hb : b < bf.length) :
    ∃ f, checkPairRun cf bf r c b = some f ∧ Continues er r₀ f.state := by
  have hx : cf[c]? = some (cf.get ⟨c, hc⟩) := List.getElem?_eq_getElem hc
  have hy : bf[b]? = some (bf.get ⟨b, hb⟩) := List.getElem?_eq_getElem hb
  simp only [checkPairRun, hx, hy, Option.bind_eq_bind, Option.bind_some]
  split
  · exact ⟨_, rfl, hr⟩
  · next hle =>
      rw [gt_iff_lt, Nat.not_lt] at hle
      obtain ⟨r₁, h₁, hr₁⟩ := hr.lowerC hx hy hle
      obtain ⟨r₂, h₂, hr₂⟩ := hr₁.lowerB hx hy hle
      rw [h₁, Option.bind_some, h₂]
      exact ⟨_, rfl, hr₂⟩

theorem Continues.checkRange {r₀ r : Run cf.length bf.length} (hr : Continues er r₀ r)
    {cpos bpos : Nat} (hc : cpos < cf.length) (hb : bpos < bf.length) :
    ∃ r', checkRangeRun cf bf cpos bpos r = some r' ∧ Continues er r₀ r' := by
  obtain ⟨r₁, h₁, hr₁⟩ := forBreak_total
    (f := fun r j => checkPairRun cf bf r (cpos + j) (bpos + j))
    (List.range' 1 (min (cf.length - cpos) (bf.length - bpos) - 1)) r
    (fun r j hj hr => by
      rw [List.mem_range'_1] at hj
      exact hr.checkPair (by omega) (by omega)) hr
  obtain ⟨r₂, h₂, hr₂⟩ := forBreak_total
    (f := fun r j => checkPairRun cf bf r (cpos - j) (bpos - j))
    (List.range' 1 (min cpos bpos)) r₁
    (fun r j _ hr => hr.checkPair (by omega) (by omega)) hr₁
  exact ⟨r₂, by rw [checkRangeRun, h₁]; exact h₂, hr₂⟩

theorem Continues.visitMatch {r₀ r : Run cf.length bf.length} (hr : Continues er r₀ r)
    {i p : Nat} {x : UInt64} (hi : cf[i]? = some x) (hp : bf[p]? = some x) :
    ∃ r', visitMatchRun cf bf i r p = some r' ∧ Continues er r₀ r' := by
  have hplt : p < bf.length := (List.getElem?_eq_some_iff.mp hp).1
  have hold : r.marks.bmark[p]? = some (r.marks.bmark.get ⟨p, r.marks.hb.symm ▸ hplt⟩) :=
    List.getElem?_eq_getElem _
  obtain ⟨r₁, h₁, -, hr₁⟩ := hr.write (.exactB hi hp)
  simp only [visitMatchRun, hold, h₁, Option.bind_eq_bind, Option.bind_some]
  split
  · exact ⟨r₁, rfl, hr₁⟩
  · exact hr₁.checkRange (List.getElem?_eq_some_iff.mp hi).1 hplt

/-! ## One frame, and the whole loop -/

/-- What frame `i` does to the run `r`. -/
inductive FrameOutcome (er : EqualRange UInt64) (skipped : Nat) (r : Run cf.length bf.length)
    (i : Nat) : Run cf.length bf.length → Prop where
  /-- The frame is matched well already, or nothing is found for it. -/
  | kept : (∀ d x, r.marks.cmark[i]? = some d → cf[i]? = some x → d < GOOD_BITS ∨ x ∉ bf) →
      (∀ diff p, LooksNearest er r.marks skipped i diff p → False) →
      FrameOutcome er skipped r i r
  /-- Frames of the same hash are found; the first one visited is `p`. -/
  | exact {p : Nat} {r₁ r₂ r' : Run cf.length bf.length} :
      (∀ diff p, LooksNearest er r.marks skipped i diff p → False) →
      r₁.log = .cmark i 0 :: r.log → r₂.log = .bmark p 0 :: r₁.log →
      Continues er r₂ r' → FrameOutcome er skipped r i r'
  /-- Frame `p` of least difference is taken. -/
  | nearest {diff p old : Nat} {r₁ r₂ r' : Run cf.length bf.length} :
      LooksNearest er r.marks skipped i diff p → r.marks.bmark[p]? = some old →
      r₁.marks.bmark[p]? = some (min diff old) → r₂.log = .bmark p diff :: r₁.log →
      Continues er r₂ r' → FrameOutcome er skipped r i r'

/-- A frame with a match of its own hash. -/
theorem Continues.exact {r : Run cf.length bf.length} (hr : Continues er r r) {skipped i d : Nat}
    {x : UInt64} (hx : cf[i]? = some x) (hd : r.marks.cmark[i]? = some d) (hgood : GOOD_BITS ≤ d)
    (hcount : er.count bf x > 0) :
    ∃ st, checkFrameRun cf bf er (r, skipped) i = some st ∧ Continues er r st.1 ∧
      FrameOutcome er skipped r i st.1 := by
  have hpos : ∀ p ∈ er.range bf x, bf[p]? = some x := fun p hp => er.mem_range.mp hp
  have hlen : er.range bf x ≠ [] := by
    intro hnil
    rw [EqualRange.count, hnil] at hcount
    exact absurd hcount (by decide)
  obtain ⟨p, ps, hps⟩ := List.exists_cons_of_ne_nil hlen
  rw [hps] at hpos
  have hp : bf[p]? = some x := hpos p List.mem_cons_self
  have hplt : p < bf.length := (List.getElem?_eq_some_iff.mp hp).1
  obtain ⟨r₁, h₁, hlog₁, hr₁⟩ := hr.write (.exactC hx hp)
  -- the first position is marked whatever its mark was
  have hold : r₁.marks.bmark[p]? = some (r₁.marks.bmark.get ⟨p, r₁.marks.hb.symm ▸ hplt⟩) :=
    List.getElem?_eq_getElem _
  obtain ⟨r₂, h₂, hlog₂, hr₂⟩ := hr₁.write (.exactB hx hp)
  have hvisit : ∃ r₃, visitMatchRun cf bf i r₁ p = some r₃ ∧ Continues er r₂ r₃ := by
    have hself : Continues er r₂ r₂ := ⟨List.suffix_refl _, hr₂.explained⟩
    simp only [visitMatchRun, hold, h₂, Option.bind_eq_bind, Option.bind_some]
    split
    · exact ⟨r₂, rfl, hself⟩
    · exact hself.checkRange (List.getElem?_eq_some_iff.mp hx).1 hplt
  obtain ⟨r₃, h₃, hr₃⟩ := hvisit
  obtain ⟨r₄, h₄, hr₄⟩ := foldlM_total (f := visitMatchRun cf bf i) ps r₃
    (fun r p hp hr => hr.visitMatch hx (hpos p (List.mem_cons_of_mem _ hp))) hr₃
  refine ⟨(r₄, skipped), ?_, hr₂.trans hr₄, .exact ?_ hlog₁ hlog₂ hr₄⟩
  · simp only [checkFrameRun, hd, hx, Option.bind_eq_bind, Option.bind_some]
    rw [if_neg (Nat.not_lt.mpr hgood), if_pos hcount, h₁, Option.bind_some, hps,
      List.foldlM_cons, h₃, Option.bind_eq_bind, Option.bind_some, h₄, Option.bind_some]
  · intro diff q hn
    obtain ⟨x', hx', hzero, -⟩ := hn.frame
    rw [hx, Option.some.injEq] at hx'
    subst hx'
    omega

/-- A frame matched with the frame of least difference. The unguarded
store meets the smaller of the difference and the mark the frame came
with. -/
theorem Continues.nearest {r : Run cf.length bf.length} (hr : Continues er r r)
    {skipped i diff p : Nat} (hstart : FrameStart er i r.marks skipped)
    (hn : LooksNearest er r.marks skipped i diff p) :
    ∃ st, checkFrameRun cf bf er (r, skipped) i = some st ∧ Continues er r st.1 ∧
      FrameOutcome er skipped r i st.1 := by
  obtain ⟨d, hd, hgood⟩ := hn.mark
  obtain ⟨x, hx, hcount, hmin⟩ := hn.frame
  have hturn := hn.turn
  have hnear := hn.near
  have h12 : CHECK_BITS = 12 := rfl
  obtain ⟨found, hfound, hfirst⟩ := minDiffBits_firstMin x bf 0
  rw [hmin, Option.some.injEq] at hfound
  subst hfound
  have hat := hfirst.attained (by simp only; omega)
  rw [List.getElem?_map, Option.map_eq_some_iff] at hat
  obtain ⟨y, hy, hdiff⟩ := hat
  simp only at hy hdiff
  have hplt : p < bf.length := (List.getElem?_eq_some_iff.mp hy).1
  have hlen : p < r.marks.bmark.length := r.marks.hb.symm ▸ hplt
  have hold : r.marks.bmark[p]? = some (r.marks.bmark.get ⟨p, hlen⟩) :=
    List.getElem?_eq_getElem hlen
  have hstop : diffBits x y ≤ STOP_CHECK_BITS := by
    have h28 : STOP_CHECK_BITS = 28 := rfl
    omega
  obtain ⟨r₁, h₁, hr₁⟩ := hr.lowerB hx hy hstop
  rw [hdiff] at h₁
  have hmarks : r₁.marks.bmark[p]? = some (min diff (r.marks.bmark.get ⟨p, hlen⟩)) := by
    have hforget := r.lowerB_marks p diff
    rw [h₁, Option.map_some, r.marks.lowerB_eq hplt (by omega), Option.some.injEq] at hforget
    rw [hforget]
    simp [hlen]
  obtain ⟨r₂, h₂, hlog, hr₂⟩ := hr₁.write (.nearestB hstart hn hold hmarks)
  have hself : Continues er r₂ r₂ := ⟨List.suffix_refl _, hr₂.explained⟩
  obtain ⟨r₃, h₃, -, hr₃⟩ := hself.write (.nearestC hn)
  obtain ⟨r₄, h₄, hr₄⟩ := hr₃.checkRange (List.getElem?_eq_some_iff.mp hx).1 hplt
  refine ⟨(r₄, 0), ?_, hr₂.trans hr₄, .nearest hn hold hmarks hlog hr₄⟩
  simp only [checkFrameRun, hd, hx, hmin, Option.bind_eq_bind, Option.bind_some]
  rw [if_neg (by omega), if_neg (by omega), if_neg (by omega), if_neg (by omega), h₁,
    Option.bind_some, h₂, Option.bind_some, h₃, Option.bind_some, h₄]
  rfl

/-- One frame of the loop: it goes through, and what it does is one of the
three outcomes. -/
theorem Continues.checkFrame {r : Run cf.length bf.length} (hr : Continues er r r)
    {skipped i : Nat} (hi : i < cf.length) (hstart : FrameStart er i r.marks skipped) :
    ∃ st, checkFrameRun cf bf er (r, skipped) i = some st ∧ Continues er r st.1 ∧
      FrameOutcome er skipped r i st.1 := by
  have hx : cf[i]? = some (cf.get ⟨i, hi⟩) := List.getElem?_eq_getElem hi
  have hd : r.marks.cmark[i]? = some (r.marks.cmark.get ⟨i, r.marks.hc.symm ▸ hi⟩) :=
    List.getElem?_eq_getElem _
  generalize cf.get ⟨i, hi⟩ = x at hx
  generalize r.marks.cmark.get ⟨i, r.marks.hc.symm ▸ hi⟩ = d at hd
  by_cases hgood : d < GOOD_BITS
  · refine ⟨(r, skipped), ?_, hr, .kept ?_ ?_⟩
    · simp only [checkFrameRun, hd, Option.bind_eq_bind, Option.bind_some]
      rw [if_pos hgood]
    · intro d' x' hd' _
      rw [hd, Option.some.injEq] at hd'
      exact .inl (hd' ▸ hgood)
    · intro diff p hn
      obtain ⟨d', hd', hge⟩ := hn.mark
      rw [hd, Option.some.injEq] at hd'
      omega
  by_cases hcount : er.count bf x > 0
  · exact hr.exact hx hd (Nat.le_of_not_lt hgood) hcount
  have hmem : ∀ d' x', r.marks.cmark[i]? = some d' → cf[i]? = some x' →
      d' < GOOD_BITS ∨ x' ∉ bf := by
    intro d' x' _ hx'
    rw [hx, Option.some.injEq] at hx'
    subst hx'
    right
    intro hin
    obtain ⟨p, hp⟩ := List.mem_iff_getElem?.mp hin
    exact hcount (List.length_pos_of_mem (er.mem_range.mpr hp))
  by_cases hturn : skipped + 1 < cf.length / SKIP_SPLIT_PARTS
  · refine ⟨(r, skipped + 1), ?_, hr, .kept hmem ?_⟩
    · simp only [checkFrameRun, hd, hx, Option.bind_eq_bind, Option.bind_some]
      rw [if_neg hgood, if_neg hcount, if_pos hturn]
    · intro diff p hn
      have hge := hn.turn
      omega
  · obtain ⟨found, hfound, -⟩ := minDiffBits_firstMin x bf 0
    by_cases hnear : found.1 > CHECK_BITS
    · refine ⟨(r, 0), ?_, hr, .kept hmem ?_⟩
      · simp only [checkFrameRun, hd, hx, hfound, Option.bind_eq_bind, Option.bind_some]
        rw [if_neg hgood, if_neg hcount, if_neg hturn, if_pos hnear]
      · intro diff p hn
        obtain ⟨x', hx', -, hmin⟩ := hn.frame
        rw [hx, Option.some.injEq] at hx'
        subst hx'
        rw [hfound, Option.some.injEq] at hmin
        have hle := hn.near
        rw [hmin] at hnear
        exact absurd hle (Nat.not_le.mpr hnear)
    · have hn : LooksNearest er r.marks skipped i found.1 found.2 :=
        ⟨⟨_, hd, Nat.le_of_not_lt hgood⟩, ⟨_, hx, Nat.eq_zero_of_not_pos hcount, hfound⟩,
          Nat.le_of_not_lt hturn, Nat.le_of_not_lt hnear⟩
      exact hr.nearest hstart hn

variable (cf bf er)

/-- The induction principle of the loop on runs: a property of the run
after `k` frames that each outcome of a frame keeps holds at the end. -/
theorem markingRun_rule {P : Nat → Run cf.length bf.length → Prop}
    (hstart : P 0 (Run.start cf.length bf.length))
    (hframe : ∀ i skipped r r', FrameStart er i r.marks skipped → Continues er r r' →
      FrameOutcome er skipped r i r' → P i r → P (i + 1) r') :
    ∃ r, markingRun cf bf er = some r ∧ Explained cf bf er r.log ∧
      P cf.length r := by
  obtain ⟨st, hst, hP⟩ := foldlM_all
    (P := fun done (st : Run cf.length bf.length × Nat) =>
      done.foldlM (checkFrame cf bf er) (Marks.init _ _, 0) = some (st.1.marks, st.2) ∧
      Explained cf bf er st.1.log ∧ P done.length st.1)
    (f := checkFrameRun cf bf er) (List.range cf.length) (Run.start _ _, 0)
    (by
      intro done i rest st hsplit hst
      obtain ⟨r, skipped⟩ := st
      obtain ⟨hmarks, hexp, hPr⟩ := hst
      -- the frames handled are those before `i`
      have hat : (List.range cf.length)[done.length]? = some i := by
        rw [hsplit]; simp
      obtain ⟨hlt, hi⟩ := List.getElem?_eq_some_iff.mp hat
      rw [List.getElem_range] at hi
      rw [List.length_range] at hlt
      have hdone : done = List.range i := by
        have htake := congrArg (List.take done.length) hsplit
        rw [List.take_left' rfl, List.take_range, Nat.min_eq_left (Nat.le_of_lt hlt), hi] at htake
        exact htake.symm
      have hfs : FrameStart er i r.marks skipped := by
        rw [FrameStart, ← hdone]
        exact hmarks
      have hr : Continues er r r := ⟨List.suffix_refl _, hexp⟩
      obtain ⟨st, hst, hcont, hout⟩ := hr.checkFrame (hi ▸ hlt) hfs
      have hforget := checkFrameRun_marks cf bf er (r, skipped) i
      rw [hst, Option.map_some] at hforget
      refine ⟨st, hst, ?_, hcont.explained, ?_⟩
      · rw [List.foldlM_append, hmarks, Option.bind_eq_bind, Option.bind_some, List.foldlM_cons,
          ← hforget]
        rfl
      · rw [hi] at hPr
        rw [List.length_append, List.length_singleton, hi]
        exact hframe i skipped r st.1 hfs hcont hout hPr)
    ⟨rfl, explained_nil, hstart⟩
  obtain ⟨-, hexp, hend⟩ := hP
  rw [List.length_range] at hend
  exact ⟨st.1, by rw [markingRun, hst]; rfl, hexp, hend⟩

end Explained

end VideoMatch.Server
