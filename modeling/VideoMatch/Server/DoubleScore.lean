/-
VideoMatch.Server.DoubleScore — the score in double precision.

`checkCandidate` and `queryFrames` have exact scores. Here are the same
functions with every result of `double` arithmetic rounded: the marks and
the integer sums are the same, the score and the comparison with the
threshold are not. Conversions of `int` and `size_t` are rounded, too. The
bound `cf.size() * 1 * 100 / 100` of the loops over the marks is exact for
fewer than 2^46 frames.
-/
import VideoMatch.Cxx.Double
import VideoMatch.Server.VideoDB

namespace VideoMatch.Server

open VideoMatch.Cxx

/-- `score1` and `score2`. -/
def partialScoreDouble (total cnt n : Nat) : ℚ :=
  Double.mul (Double.div (Double.sub 18 (toDouble (total / cnt : Nat))) 18)
    (Double.div (toDouble cnt)
      (Double.mul (toDouble n) (Double.sub 1 (Double.mul 2 (toDouble CUT_RATIO)))))

/-- `VideoDB::check_candidate`. -/
def checkCandidateDouble (er : EqualRange UInt64) (bf cf : List UInt64) : Option ℚ := do
  let m ← finalMarks cf bf er
  let (total1, cnt1) ← sumMarks m.cmark
  if cf.length * bf.length = 0 then
    some 0
  else
    let cnt1 := if cnt1 = 0 then 1 else cnt1
    if total1 / cnt1 > 18 then
      some 0
    else do
      let score1 := partialScoreDouble total1 cnt1 cf.length
      let (total2, cnt2) ← sumMarks m.bmark
      let cnt2 := if cnt2 = 0 then 1 else cnt2
      if total2 / cnt2 > 18 then
        some 0
      else
        let score2 := partialScoreDouble total2 cnt2 bf.length
        some (Double.mul score1 score2)

namespace VideoDB

/-- The constant 0.09. -/
def thresholdDouble : ℚ := toDouble (9 / 100)

/-- One candidate of `Query`: its score, and its reference dropped. -/
def checkOneDouble (er : EqualRange UInt64) (frames : List UInt64)
    (st : List (Bytes × ℚ) × VideoDB) (i : Nat) : Option (List (Bytes × ℚ) × VideoDB) := do
  let item ← st.2.heap.read i
  let score ← checkCandidateDouble er item.frames frames
  let result := if score > thresholdDouble then st.1 ++ [(item.name, score)] else st.1
  let heap ← decRef st.2.heap i
  some (result, { st.2 with heap := heap })

/-- `Query(data_item, result)`: the return value, `result` and the state. -/
def queryFramesDouble (er : EqualRange UInt64) (o : HashOrder) (s : VideoDB)
    (frames : List UInt64) (result : List (Bytes × ℚ)) :
    Option (Int × List (Bytes × ℚ) × VideoDB) := do
  let (candidates, s) ← getCandidates1 o s frames
  let (result, s) ← candidates.foldlM (checkOneDouble er frames) (result, s)
  let result := sortResult o result
  some (toInt result.length, result, s)

end VideoDB

end VideoMatch.Server
