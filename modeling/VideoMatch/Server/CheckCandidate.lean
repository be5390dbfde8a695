/-
VideoMatch.Server.CheckCandidate — the similarity score of two videos.

A video is a list of 64-bit frame hashes. `checkCandidate` compares a
stored video (the base, `bf`) with the queried one (`cf`): every frame of
either side carries a mark, 255 for "no match" or the number of bits in
which it differs from the frame it was matched with. The main loop looks
for completely matched frames (same hash) and, for some of the others,
for the frame of least difference; from each match found it walks ahead
and back and marks the neighbours as long as they stay similar. The
score multiplies, over the two sides, how similar the marked frames are
and how much of the video is marked.

Every vector access is checked: `none` is an index out of range.
`double` arithmetic is rational arithmetic, without rounding; the rounded
score is in `Server.DoubleScore`. Indices, counts and sums are
natural numbers, so the model is exact for lists whose length fits an
`int` and whose sums of marks do.

`base_frames.equal_range` yields the positions of one hash in an order
the library chooses; the `EqualRange` argument is that choice.
-/
import VideoMatch.Cxx.Loops
import VideoMatch.Cxx.Containers
import VideoMatch.Cxx.Words

namespace VideoMatch.Server

open VideoMatch.Cxx

/-! ## Bit counting -/

/-- The number of one bits of a byte, as the inner loop of
`make_bit1_table` counts them. -/
def countBits (i : Nat) : Nat :=
  ((List.range 8).foldl
    (fun (st : Nat × Nat) _ =>
      (if st.2 &&& 1 ≠ 0 then st.1 + 1 else st.1, st.2 >>> 1)) (0, i)).1

/-- `bit1_table` after `make_bit1_table`. The loop runs over `i < 255`;
the entry of 255 keeps the zero of static storage. -/
def bit1Table : List Nat :=
  (List.range 255).foldl (fun t i => t.set i (countBits i)) (List.replicate 256 0)

def bit1count (i : UInt64) : Nat :=
  ((u64Bytes i).map (fun c => bit1Table.getD c.toNat 0)).sum

def diffBits (key1 key2 : UInt64) : Nat := bit1count (key1 ^^^ key2)

/-- `min_diff_bits`: the least difference and, in `pos`, where it is. The
in-out argument `pos` keeps its value if no frame differs in fewer than
64 bits. -/
def minDiffBits (key : UInt64) (base : List UInt64) (start stop pos : Nat) :
    Option (Nat × Nat) :=
  (List.range' start (stop - start)).foldlM
    (fun (st : Nat × Nat) i => do
      let b ← base[i]?
      let d := bit1count (key ^^^ b)
      if d < st.1 then some (d, i) else some st)
    (64, pos)

/-! ## Marks -/

def SKIP_SPLIT_PARTS : Nat := 32
def CHECK_BITS : Nat := 12
def STOP_CHECK_BITS : Nat := 28
def GOOD_BITS : Nat := 4

/-- The vectors `cmark` and `bmark`, one mark for each frame. -/
@[ext] structure Marks (nc nb : Nat) where
  cmark : List Nat
  bmark : List Nat
  hc : cmark.length = nc
  hb : bmark.length = nb

namespace Marks

variable {nc nb : Nat}

/-- All frames unmatched. -/
def init (nc nb : Nat) : Marks nc nb :=
  ⟨List.replicate nc 255, List.replicate nb 255, List.length_replicate, List.length_replicate⟩

/-- `cmark[i] = d`, narrowed to `uint8_t`. -/
def setC (m : Marks nc nb) (i d : Nat) : Option (Marks nc nb) :=
  if i < nc then some { m with cmark := m.cmark.set i (d % 256), hc := by simp [m.hc] } else none

/-- `bmark[i] = d`, narrowed to `uint8_t`. -/
def setB (m : Marks nc nb) (i d : Nat) : Option (Marks nc nb) :=
  if i < nb then some { m with bmark := m.bmark.set i (d % 256), hb := by simp [m.hb] } else none

/-- `if (d < cmark[i]) cmark[i] = d`. -/
def lowerC (m : Marks nc nb) (i d : Nat) : Option (Marks nc nb) := do
  let old ← m.cmark[i]?
  if d < old then m.setC i d else some m

/-- `if (d < bmark[i]) bmark[i] = d`. -/
def lowerB (m : Marks nc nb) (i d : Nat) : Option (Marks nc nb) := do
  let old ← m.bmark[i]?
  if d < old then m.setB i d else some m

end Marks

/-! ## The main loop -/

section

variable (cf bf : List UInt64)

/-- One step of either loop of `check_range`, at the frames `c` and `b`. -/
def checkPair (m : Marks cf.length bf.length) (c b : Nat) :
    Option (Flow (Marks cf.length bf.length)) := do
  let x ← cf[c]?
  let y ← bf[b]?
  let d := diffBits x y
  if d > STOP_CHECK_BITS then
    some (.brk m)
  else do
    let m ← m.lowerC c d
    let m ← m.lowerB b d
    some (.next m)

/-- `check_range`: mark the neighbours of a match, ahead and then back.
The two lists are the values of `j` that the loop conditions admit. -/
def checkRange (cpos bpos : Nat) (m : Marks cf.length bf.length) :
    Option (Marks cf.length bf.length) := do
  let m ← forBreak (fun m j => checkPair cf bf m (cpos + j) (bpos + j))
    (List.range' 1 (min (cf.length - cpos) (bf.length - bpos) - 1)) m
  forBreak (fun m j => checkPair cf bf m (cpos - j) (bpos - j))
    (List.range' 1 (min cpos bpos)) m

/-- One position of the base that has the hash of frame `i`. -/
def visitMatch (i : Nat) (m : Marks cf.length bf.length) (p : Nat) :
    Option (Marks cf.length bf.length) := do
  let old ← m.bmark[p]?
  let m ← m.setB p 0
  if old < GOOD_BITS then some m else checkRange cf bf i p m

/-- The body of the main loop; the second component is `skipped`. -/
def checkFrame (er : EqualRange UInt64) (st : Marks cf.length bf.length × Nat) (i : Nat) :
    Option (Marks cf.length bf.length × Nat) := do
  let (m, skipped) := st
  let mark ← m.cmark[i]?
  if mark < GOOD_BITS then
    some (m, skipped)
  else do
    let h ← cf[i]?
    if er.count bf h > 0 then do
      let m ← m.setC i 0
      let m ← (er.range bf h).foldlM (visitMatch cf bf i) m
      some (m, skipped)
    else if skipped + 1 < cf.length / SKIP_SPLIT_PARTS then
      some (m, skipped + 1)
    else do
      let (diff, mdfPos) ← minDiffBits h bf 0 bf.length 0
      if diff > CHECK_BITS then
        some (m, 0)
      else do
        let m ← m.lowerB mdfPos diff
        let m ← m.setB mdfPos diff
        let m ← m.setC i diff
        let m ← checkRange cf bf i mdfPos m
        some (m, 0)

/-- The marks when the main loop ends. -/
def finalMarks (er : EqualRange UInt64) : Option (Marks cf.length bf.length) := do
  let st ← (List.range cf.length).foldlM (checkFrame cf bf er) (Marks.init _ _, 0)
  some st.1

end

/-! ## The score -/

/-- The share of either end of a video that does not count. -/
def CUT_RATIO : ℚ := 0

/-- The indices over which the marks of a video of `n` frames are summed. -/
def cutRange (n : Nat) : List Nat :=
  (List.range n).filter fun i =>
    ⌊(n : ℚ) * CUT_RATIO * 100 / 100⌋₊ ≤ i ∧ (i : ℚ) < n * (1 - CUT_RATIO) * 100 / 100

/-- `total_diff_bits` and `cnt` of one side. -/
def sumMarks (mark : List Nat) : Option (Nat × Nat) :=
  (cutRange mark.length).foldlM
    (fun (st : Nat × Nat) i => do
      let d ← mark[i]?
      if d ≠ 255 then some (st.1 + d, st.2 + 1) else some st)
    (0, 0)

/-- `score1` and `score2`: closeness of the marked frames (with an integer
average) times the share of marked frames. -/
def partialScore (total cnt n : Nat) : ℚ :=
  ((18 - (total / cnt : Nat)) / 18) * (cnt / (n * (1 - 2 * CUT_RATIO)))

/-- `VideoDB::check_candidate`, on the frames of the stored video `bf` and
of the queried video `cf`. -/
def checkCandidate (er : EqualRange UInt64) (bf cf : List UInt64) : Option ℚ := do
  let m ← finalMarks cf bf er
  let (total1, cnt1) ← sumMarks m.cmark
  if cf.length * bf.length = 0 then
    some 0
  else
    let cnt1 := if cnt1 = 0 then 1 else cnt1 -- avoid zero div
    if total1 / cnt1 > 18 then
      some 0
    else do
      let score1 := partialScore total1 cnt1 cf.length
      let (total2, cnt2) ← sumMarks m.bmark
      let cnt2 := if cnt2 = 0 then 1 else cnt2
      if total2 / cnt2 > 18 then
        some 0
      else
        let score2 := partialScore total2 cnt2 bf.length
        some (score1 * score2)

end VideoMatch.Server
