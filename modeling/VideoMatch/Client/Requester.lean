/-
VideoMatch.Client.Requester — the requests the client builds.

`Requester::Add` and `Requester::Query` fill a JSON value member by member
and post the writer's text. The frames are assigned one by one, so the
`frames` member comes into being with the first of them.
-/
import VideoMatch.Cxx.Json

namespace VideoMatch.Client

open VideoMatch.Cxx

/-- The loop `v["frames"][i] = frames[i]`. -/
def setFrames (v : Members) (frames : List UInt64) : Option Members :=
  Json.setElements v (ascii "frames") (frames.map fun f => .int f.toNat)

/-- The value `Requester::Add` writes. -/
def addRequest (name : Bytes) (frames : List UInt64) : Option Json := do
  let v := Json.set (Json.set [] (ascii "type") (.str (ascii "add"))) (ascii "name") (.str name)
  let v ← setFrames v frames
  some (.obj v)

/-- The value `Requester::Query` writes. -/
def queryRequest (frames : List UInt64) : Option Json := do
  let v := Json.set [] (ascii "type") (.str (ascii "query_duplicate"))
  let v ← setFrames v frames
  some (.obj v)

end VideoMatch.Client
