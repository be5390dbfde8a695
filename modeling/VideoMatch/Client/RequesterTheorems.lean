/-
VideoMatch.Client.RequesterTheorems — the server understands the client.

The two programs meet in the text of the request. Given that the JSON
library reads back what it wrote for the request at hand, the server takes
the request apart into the type, the name and the array the client put in
(`handle_addRequest`, `handle_queryRequest`), and decodes as many frames as
the `int` that counts them says (`decodeFrames_map`).

Two lengths break the agreement (`understood_iff`): for an empty list the
client sends no `frames` member and the server insists on one, and from
2^31 frames on the count does not fit the `int`.
-/
import VideoMatch.Client.Requester
import VideoMatch.Server.RequestTheorems

namespace VideoMatch.Client

open VideoMatch.Cxx VideoMatch.Server

/-! ## The requests as values -/

theorem setFrames_eq {v : Members} (hnew : Json.find? v (ascii "frames") = none)
    (frames : List UInt64) :
    setFrames v frames = some (if frames = [] then v
      else Json.set v (ascii "frames") (.arr (frames.map fun f => .int f.toNat))) := by
  rw [setFrames, Json.setElements_eq hnew]
  simp only [List.map_eq_nil_iff]

/-- The members every add request has. -/
def addHeader (name : Bytes) : Members :=
  Json.set (Json.set [] (ascii "type") (.str (ascii "add"))) (ascii "name") (.str name)

/-- The members every query request has. -/
def queryHeader : Members := Json.set [] (ascii "type") (.str (ascii "query_duplicate"))

/-- The frames as the client writes them. -/
def framesJson (frames : List UInt64) : Json := .arr (frames.map fun f => .int f.toNat)

theorem addRequest_eq (name : Bytes) (frames : List UInt64) :
    addRequest name frames = some (.obj (if frames = [] then addHeader name
      else Json.set (addHeader name) (ascii "frames") (framesJson frames))) := by
  have hnew : Json.find? (addHeader name) (ascii "frames") = none := by
    rw [addHeader, Json.find?_set_of_ne _ _ (by decide), Json.find?_set_of_ne _ _ (by decide)]
    rfl
  show ((setFrames (addHeader name) frames).bind fun v => some (Json.obj v)) = _
  rw [setFrames_eq hnew]
  rfl

theorem queryRequest_eq (frames : List UInt64) :
    queryRequest frames = some (.obj (if frames = [] then queryHeader
      else Json.set queryHeader (ascii "frames") (framesJson frames))) := by
  have hnew : Json.find? queryHeader (ascii "frames") = none := by
    rw [queryHeader, Json.find?_set_of_ne _ _ (by decide)]
    rfl
  show ((setFrames queryHeader frames).bind fun v => some (Json.obj v)) = _
  rw [setFrames_eq hnew]
  rfl

/-! ## Decoding -/

/-- The server decodes as many frames as `int fc` says. -/
theorem decodeFrames_map (frames : List UInt64) :
    decodeFrames (frames.map fun f => .int f.toNat)
      = some (frames.take (toInt frames.length).toNat) := by
  have hfold : ∀ k ≤ frames.length, (List.range k).foldlM
      (fun fs i => (frames.map fun f => Json.int f.toNat)[i]?.bind fun x =>
        x.asUInt64.map fun f => fs ++ [f]) [] = some (frames.take k) := by
    intro k
    induction k with
    | zero => intro _; rfl
    | succ k ih =>
        intro hk
        have hget : frames[k]? = some frames[k] := List.getElem?_eq_getElem _
        have hu64 := Json.asUInt64_toNat frames[k]
        have htake : frames.take (k + 1) = frames.take k ++ [frames[k]] :=
          List.take_succ_eq_append_getElem _
        rw [List.range_succ, List.foldlM_append, ih (by omega), htake]
        simp [hget, hu64]
  rw [decodeFrames, List.length_map]
  exact hfold _ (toNat_toInt_le _)

/-- The text of a value that round-trips is parsed to the value. -/
theorem parse_cStr {J : JsonCpp} {v : Json} (h : J.RoundTrips v) :
    J.parse (cStr (J.write v)) = some v := by
  rw [cStr, takeWhile_ne_zero h.2, h.1]

theorem handle_addRequest {J : JsonCpp} {name : Bytes} {frames : List UInt64} {v : Json}
    (hne : frames ≠ []) (hv : addRequest name frames = some v) (hrt : J.RoundTrips v)
    (er : EqualRange UInt64) (o : HashOrder) (s : VideoDB) :
    handle J er o s (J.write v) = (VideoDB.add o s
      (DataItem.ofFrames name (frames.take (toInt frames.length).toNat))).map
        fun (code, s) => (addReply code, s) := by
  rw [addRequest_eq, if_neg hne, Option.some.injEq] at hv
  have htype : Json.find? (Json.set (addHeader name) (ascii "frames") (framesJson frames))
      (ascii "type") = some (.str (ascii "add")) := by
    rw [Json.find?_set_of_ne _ _ (by decide), addHeader, Json.find?_set_of_ne _ _ (by decide),
      Json.find?_set_self]
  have hname : Json.find? (Json.set (addHeader name) (ascii "frames") (framesJson frames))
      (ascii "name") = some (.str name) := by
    rw [Json.find?_set_of_ne _ _ (by decide), addHeader, Json.find?_set_self]
  have hframes : Json.find? (Json.set (addHeader name) (ascii "frames") (framesJson frames))
      (ascii "frames") = some (.arr (frames.map fun f => .int f.toNat)) :=
    Json.find?_set_self _ _ _
  rw [handle, parse_cStr hrt, ← hv]
  simp only [Json.member, htype, hname, hframes, decodeFrames_map, if_true,
    Option.bind_eq_bind, Option.bind_some]
  rw [Option.map_eq_bind]
  rfl

theorem handle_queryRequest {J : JsonCpp} {frames : List UInt64} {v : Json} (hne : frames ≠ [])
    (hv : queryRequest frames = some v) (hrt : J.RoundTrips v) (er : EqualRange UInt64)
    (o : HashOrder) (s : VideoDB) :
    handle J er o s (J.write v) = (VideoDB.queryFrames er o s
      (frames.take (toInt frames.length).toNat) []).bind
        fun (code, result, s) => (queryReply code result).map fun rv => (.obj rv, s) := by
  rw [queryRequest_eq, if_neg hne, Option.some.injEq] at hv
  have htype : Json.find? (Json.set queryHeader (ascii "frames") (framesJson frames))
      (ascii "type") = some (.str (ascii "query_duplicate")) := by
    rw [Json.find?_set_of_ne _ _ (by decide), queryHeader, Json.find?_set_self]
  have hframes : Json.find? (Json.set queryHeader (ascii "frames") (framesJson frames))
      (ascii "frames") = some (.arr (frames.map fun f => .int f.toNat)) :=
    Json.find?_set_self _ _ _
  have hother : ¬ (ascii "query_duplicate" = ascii "add") := by decide
  rw [handle, parse_cStr hrt, ← hv]
  simp only [Json.member, htype, hframes, decodeFrames_map, if_neg hother, if_true,
    Option.bind_eq_bind, Option.bind_some, Option.map_eq_bind]
  rfl

/-! ## Agreement -/

/-- The server understands the two requests as the two calls: the reply to
the add request has the code of `Add` and the store is the one `Add` leaves,
the reply to the query request has the results of `Query`. -/
structure Understood (J : JsonCpp) (er : EqualRange UInt64) (o : HashOrder) (s : VideoDB)
    (name : Bytes) (frames : List UInt64) : Prop where
  add : ∃ v code s', addRequest name frames = some v ∧
    VideoDB.add o s (DataItem.ofFrames name frames) = some (code, s') ∧
    handle J er o s (J.write v) = some (addReply code, s')
  query : ∃ v code result rv, queryRequest frames = some v ∧
    VideoDB.queryFrames er o s frames [] = some (code, result, s) ∧
    queryReply code result = some rv ∧ handle J er o s (J.write v) = some (.obj rv, s)

/-- Lists the server decodes in full are understood. -/
theorem understood_of_lt {J : JsonCpp} {name : Bytes} {frames : List UInt64}
    (hadd : ∀ v, addRequest name frames = some v → J.RoundTrips v)
    (hquery : ∀ v, queryRequest frames = some v → J.RoundTrips v) (hne : frames ≠ [])
    (hlt : frames.length < 2 ^ 31) {s : VideoDB} (hs : VideoDB.Inv s) (er : EqualRange UInt64)
    (o : HashOrder) : Understood J er o s name frames := by
  have hall : frames.take (toInt frames.length).toNat = frames := by
    rw [toNat_toInt_of_lt hlt, List.take_length]
  constructor
  · obtain ⟨s', hcall, -⟩ := VideoDB.add_catalogue hs o (DataItem.ofFrames name frames)
    have hv := addRequest_eq name frames
    refine ⟨_, _, s', hv, hcall, ?_⟩
    rw [handle_addRequest hne hv (hadd _ hv), hall, hcall]
    rfl
  · obtain ⟨out, hcall, -⟩ := VideoDB.queryFrames_spec hs er o frames []
    have hv := queryRequest_eq frames
    refine ⟨_, _, out, _, hv, hcall, queryReply_eq _ out, ?_⟩
    rw [handle_queryRequest hne hv (hquery _ hv), hall, hcall, Option.bind_some]
    simp only [queryReply_eq, Option.map_some]

/-- A query without frames is refused. -/
theorem not_understood_nil {J : JsonCpp} {name : Bytes}
    (hquery : ∀ v, queryRequest [] = some v → J.RoundTrips v) (er : EqualRange UInt64)
    (o : HashOrder) (s : VideoDB) : ¬ Understood J er o s name [] := by
  intro h
  obtain ⟨-, v, code, result, rv, hv, hcall, hrv, hhandle⟩ := h
  have hrefused : handle J er o s (J.write v) = some (badRpl "No 'frames' field", s) := by
    have hother : ¬ (ascii "query_duplicate" = ascii "add") := by decide
    rw [queryRequest_eq, if_pos rfl, Option.some.injEq] at hv
    rw [handle, parse_cStr (hquery v (by rw [queryRequest_eq, if_pos rfl, hv])), ← hv]
    have htype : Json.find? queryHeader (ascii "type") = some (.str (ascii "query_duplicate")) :=
      Json.find?_set_self _ _ _
    have hframes : Json.find? queryHeader (ascii "frames") = none := by
      rw [queryHeader, Json.find?_set_of_ne _ _ (by decide)]
      rfl
    simp only [Json.member, htype, hframes, if_neg hother, if_true, Option.bind_eq_bind,
      Option.bind_some]
  rw [hrefused, Option.some.injEq, Prod.mk.injEq] at hhandle
  -- a refusal has a message, an answer has none
  have hmsg : Json.find? rv (ascii "msg") = some (.str (ascii "No 'frames' field")) := by
    rw [← Json.obj.inj hhandle.1, Json.find?_set_self]
  have hnone : Json.find? rv (ascii "msg") = none := by
    rw [queryReply_eq, Option.some.injEq] at hrv
    have hcode : Json.find? (Json.set [] (ascii "code") (.int code)) (ascii "msg") = none := by
      rw [Json.find?_set_of_ne _ _ (by decide)]
      rfl
    rw [← hrv]
    split
    · exact hcode
    · rw [Json.find?_set_of_ne _ _ (by decide), hcode]
  rw [hnone] at hmsg
  cases hmsg

/-- A list that is too long for an `int` is stored in part. -/
theorem not_understood_of_ge {J : JsonCpp} {name : Bytes} {frames : List UInt64}
    (hadd : ∀ v, addRequest name frames = some v → J.RoundTrips v) (hne : frames ≠ [])
    (hge : 2 ^ 31 ≤ frames.length) (er : EqualRange UInt64) (o : HashOrder) :
    ¬ Understood J er o VideoDB.fresh name frames := by
  intro h
  obtain ⟨⟨v, code, s, hv, hcall, hhandle⟩, -⟩ := h
  have hstored : ∀ fs code s, VideoDB.add o VideoDB.fresh (DataItem.ofFrames name fs)
      = some (code, s) → s.content = [(name, fs)] := by
    intro fs code s h
    rcases VideoDB.add_spec VideoDB.inv_fresh o (DataItem.ofFrames name fs) with ⟨hmem, -⟩ |
      ⟨-, s', hacc, -, hcontent, -⟩
    · rw [VideoDB.names_catalogue] at hmem
      cases hmem
    · rw [h] at hacc
      cases hacc
      rw [hcontent]
      rfl
  rw [handle_addRequest hne hv (hadd v hv), Option.map_eq_some_iff] at hhandle
  obtain ⟨⟨code', s'⟩, hpart, heq⟩ := hhandle
  cases heq
  have hwhole := hstored _ _ _ hcall
  rw [hstored _ _ _ hpart, List.cons.injEq, Prod.mk.injEq] at hwhole
  have hlen := congrArg List.length hwhole.1.2
  have hshort := toNat_toInt_lt frames.length
  rw [List.length_take] at hlen
  omega

/-- The requests of the client are understood in every reachable state
exactly if there is at least one frame and their number fits an `int`. -/
theorem understood_iff (J : JsonCpp) (name : Bytes) (frames : List UInt64)
    (hadd : ∀ v, addRequest name frames = some v → J.RoundTrips v)
    (hquery : ∀ v, queryRequest frames = some v → J.RoundTrips v) :
    (∀ er o s, VideoDB.Reachable s → Understood J er o s name frames) ↔
      frames ≠ [] ∧ frames.length < 2 ^ 31 := by
  constructor
  · intro h
    have hne : frames ≠ [] := by
      rintro rfl
      exact not_understood_nil hquery default default _
        (h default default _ VideoDB.reachable_fresh)
    refine ⟨hne, Nat.lt_of_not_le fun hge => ?_⟩
    exact not_understood_of_ge hadd hne hge default default
      (h default default _ VideoDB.reachable_fresh)
  · intro h er o s hs
    obtain ⟨hne, hlt⟩ := h
    exact understood_of_lt hadd hquery hne hlt hs.inv er o

/-! ### The texts -/

/-- The texts of `StyledWriter` for the requests of the video `v` with the
frames 1 and 2^64 - 1, and for its requests without frames. -/
def textAdd : Bytes := ascii
  "\x7b\n   \"frames\" : [ 1, 18446744073709551615 ],\n   \"name\" : \"v\",\n   \"type\" : \"add\"\n\x7d\n"

def textQuery : Bytes := ascii
  "\x7b\n   \"frames\" : [ 1, 18446744073709551615 ],\n   \"type\" : \"query_duplicate\"\n\x7d\n"

def textAddNoFrames : Bytes := ascii
  "\x7b\n   \"name\" : \"v\",\n   \"type\" : \"add\"\n\x7d\n"

def textQueryNoFrames : Bytes := ascii "\x7b\n   \"type\" : \"query_duplicate\"\n\x7d\n"

/-- The library on these four requests. -/
def sampleJson : JsonCpp where
  write
    | .obj [_, _, _] => textAdd
    | .obj [(_, .arr _), _] => textQuery
    | .obj [_, _] => textAddNoFrames
    | .obj [_] => textQueryNoFrames
    | _ => []
  parse text :=
    if text = textAdd then addRequest (ascii "v") [1, 2 ^ 64 - 1]
    else if text = textQuery then queryRequest [1, 2 ^ 64 - 1]
    else if text = textAddNoFrames then addRequest (ascii "v") []
    else if text = textQueryNoFrames then queryRequest []
    else none

/-- A server that has another video understands both. -/
theorem understood_two_frames : ∃ s, s.content = [(ascii "u", [7])] ∧
    Understood sampleJson default default s (ascii "v") [1, 2 ^ 64 - 1] := by
  obtain ⟨s, hs, hcontent⟩ := VideoDB.addReached_single (ascii "u") [7]
  refine ⟨s, hcontent, (understood_iff sampleJson (ascii "v") [1, 2 ^ 64 - 1] (fun v hv => ?_)
    fun v hv => ?_).mpr ⟨by decide, by decide⟩ default default s hs.reachable⟩
  · have htext : sampleJson.write v = textAdd := by cases hv; rfl
    exact .of_text htext hv (by decide)
  · have htext : sampleJson.write v = textQuery := by cases hv; rfl
    exact .of_text htext hv (by decide)

/-- The server does not understand the requests without frames. -/
theorem no_frames_not_understood :
    (∀ v, addRequest (ascii "v") [] = some v → sampleJson.RoundTrips v) ∧
    (∀ v, queryRequest [] = some v → sampleJson.RoundTrips v) ∧
    ¬ ∀ er o s, VideoDB.Reachable s → Understood sampleJson er o s (ascii "v") [] := by
  have hquery : ∀ v, queryRequest [] = some v → sampleJson.RoundTrips v := by
    intro v hv
    have htext : sampleJson.write v = textQueryNoFrames := by cases hv; rfl
    exact .of_text htext hv (by decide)
  refine ⟨fun v hv => ?_, hquery, fun h => ?_⟩
  · have htext : sampleJson.write v = textAddNoFrames := by cases hv; rfl
    exact .of_text htext hv (by decide)
  · exact not_understood_nil hquery default default _
      (h default default _ VideoDB.reachable_fresh)

end VideoMatch.Client
