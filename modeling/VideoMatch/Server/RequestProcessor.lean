/-
VideoMatch.Server.RequestProcessor — requests and replies.

Request:

    type: "add" or "query_duplicate"
    name: string (when add)
    frames: array of UInt64 (both)

Reply:

    code: int
    msg: string, if the request was refused
    result: array of name and score (query_duplicate)

`process` answers a posted request, `query` a query by key, `info` the
counters. Each is the JSON writer applied to the reply value `rv`; the
value itself is `handle` and `handleKey`, so that results can be stated
about it and not about its text. `none` is an exception of the JSON
library or a fault of the store.
-/
import VideoMatch.Cxx.Double
import VideoMatch.Cxx.Json
import VideoMatch.Server.Storage

namespace VideoMatch.Server

open VideoMatch.Cxx

/-- `s.c_str()` read as a string: it ends at the first NUL. -/
def cStr (s : Bytes) : Bytes := s.takeWhile (· ≠ 0)

/-- The value `bad_rpl(msg)` writes. -/
def badRpl (msg : String) : Json :=
  .obj (Json.set (Json.set [] (ascii "code") (.int (-1))) (ascii "msg") (.str (ascii msg)))

/-- The loop that pushes `frames[i].asUInt64()`, with `int fc = frames.size()`. -/
def decodeFrames (frames : List Json) : Option (List UInt64) :=
  (List.range (toInt frames.length).toNat).foldlM
    (fun fs i => frames[i]?.bind fun x => x.asUInt64.map fun f => fs ++ [f]) []

/-- One element of the result array. -/
def resultItem (r : Bytes × ℚ) : Json :=
  .obj (Json.set (Json.set [] (ascii "name") (.str r.1)) (ascii "score") (.real r.2))

/-- The reply to an add. -/
def addReply (code : Int) : Json := .obj (Json.set [] (ascii "code") (.int code))

/-- The members of the reply to a query. -/
def queryReply (code : Int) (result : List (Bytes × ℚ)) : Option Members :=
  Json.setElements (Json.set [] (ascii "code") (.int code)) (ascii "result")
    (result.map resultItem)

/-- The reply value of `Process` and the store. -/
def handle (J : JsonCpp) (er : EqualRange UInt64) (o : HashOrder) (s : VideoDB)
    (request : Bytes) : Option (Json × VideoDB) :=
  match J.parse (cStr request) with
  | none => some (badRpl "Parse failed", s)
  | some v => do
    match ← v.member (ascii "type") with
    | some (.str reqType) =>
      if reqType = ascii "add" then
        match ← v.member (ascii "name") with
        | some (.str name) =>
          match ← v.member (ascii "frames") with
          | some (.arr frames) =>
            let frames ← decodeFrames frames
            let (code, s) ← VideoDB.add o s (DataItem.ofFrames name frames)
            some (addReply code, s)
          | _ => some (badRpl "No 'frames' field", s)
        | _ => some (badRpl "No 'name' field", s)
      else if reqType = ascii "query_duplicate" then
        match ← v.member (ascii "frames") with
        | some (.arr frames) =>
          let frames ← decodeFrames frames
          let (code, result, s) ← VideoDB.queryFrames er o s frames []
          let rv ← queryReply code result
          some (.obj rv, s)
        | _ => some (badRpl "No 'frames' field", s)
      else
        some (badRpl "Bad 'type' field", s)
    | _ => some (badRpl "No 'type' field", s)

/-- `RequestProcessor::Process`: the reply and the store. -/
def process (J : JsonCpp) (er : EqualRange UInt64) (o : HashOrder) (s : VideoDB)
    (request : Bytes) : Option (Bytes × VideoDB) :=
  (handle J er o s request).map fun (rv, s) => (J.write rv, s)

/-- `RequestProcessor::Info`. -/
def info (J : JsonCpp) (s : VideoDB) : Bytes :=
  J.write (.obj (Json.set (Json.set (Json.set [] (ascii "video_count") (.int s.count))
    (ascii "frames_count") (.int s.framesCount))
    (ascii "frame_table_size") (.int s.frameTableSize)))

/-! ## Queries by key -/

/-- `%f`: six digits after the point. -/
def formatF (q : ℚ) : Bytes :=
  let n := (roundHalfEven (|q| * 10 ^ 6)).toNat
  let digits := ascii (toString (n % 10 ^ 6))
  (if q < 0 then ascii "-" else []) ++ ascii (toString (n / 10 ^ 6)) ++ ascii "."
    ++ List.replicate (6 - digits.length) 48 ++ digits

/-- `snprintf(buf, 128, "%s %s %f\n", key, name, score)`. -/
def plainLine (key name : Bytes) (score : ℚ) : Bytes :=
  (cStr key ++ ascii " " ++ cStr name ++ ascii " " ++ formatF score ++ ascii "\n").take 127

/-- The reply value of `Query(key, reply, false)`; `timeMs` is the measured
time. -/
def handleKey (er : EqualRange UInt64) (o : HashOrder) (timeMs : Int) (s : VideoDB)
    (key : Bytes) : Option (Json × VideoDB) := do
  let (r, dataItem) ← VideoDB.queryName s key (DataItem.ofFrames [] [])
  if r < 0 then
    some (badRpl "Key not found", s)
  else
    let (code, result, s) ← VideoDB.queryFrames er o s dataItem.frames []
    let rv ← queryReply code result
    some (.obj (Json.set rv (ascii "time_ms") (.int timeMs)), s)

/-- The reply of `Query(key, reply, true)`. -/
def handleKeyPlain (er : EqualRange UInt64) (o : HashOrder) (s : VideoDB) (key : Bytes) :
    Option (Bytes × VideoDB) := do
  let (r, dataItem) ← VideoDB.queryName s key (DataItem.ofFrames [] [])
  if r < 0 then
    some ([], s)
  else
    let (_, result, s) ← VideoDB.queryFrames er o s dataItem.frames []
    some (result.flatMap fun r => plainLine key r.1 r.2, s)

/-- `RequestProcessor::Query`. -/
def query (J : JsonCpp) (er : EqualRange UInt64) (o : HashOrder) (timeMs : Int) (s : VideoDB)
    (key : Bytes) (plain : Bool) : Option (Bytes × VideoDB) :=
  if plain then handleKeyPlain er o s key
  else (handleKey er o timeMs s key).map fun (rv, s) => (J.write rv, s)

end VideoMatch.Server
