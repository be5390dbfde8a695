/-
VideoMatch.Client.MainTheorems — the client and the server together.

The client hashes a directory and posts the hashes under a name; later it
posts the hashes of the same directory as a query. Between the two, and
before, the server handles what others ask. The reply to the query lists the
name with score 1 (`client_finds_what_it_added`).

The two programs share the JSON library, and each reads what the other
wrote. Blank hashes count for nothing, so one picture must have another
hash.
-/
import VideoMatch.Client.Main
import VideoMatch.Client.RequesterTheorems
import VideoMatch.Server.MatchServerTheorems

namespace VideoMatch.Client

open VideoMatch.Cxx VideoMatch.Machine VideoMatch.Server

/-! ## The client -/

/-- A word in any case of its letters is one of the two requests. -/
theorem caseEq_add_query {req : Bytes} (h : caseEq req (ascii "add") = true) :
    caseEq req (ascii "query") = false := by
  have hmap : req.map toLower = (ascii "add").map toLower := of_decide_eq_true h
  rw [caseEq, hmap]
  decide

theorem clientMain_add (J : JsonCpp) (pictures : Pictures) {req url name dir : Bytes}
    {filelist : List Bytes} {v : Json} (hreq : caseEq req (ascii "add") = true)
    (hdir : pictures.scandir dir = some filelist)
    (hv : addRequest name (hashFrames pictures dir filelist) = some v) :
    clientMain J pictures ⟨some req, some url, some name, some dir⟩
      = some (.posted [postfields J v]) := by
  have hname : ¬ (caseEq req (ascii "add") = true ∧ some name = none) := fun h => nomatch h.2
  simp only [clientMain, if_neg hname, hdir, Option.getD_some, requests, if_pos hreq, hv,
    caseEq_add_query hreq, if_neg Bool.false_ne_true, Option.map_some, Option.bind_eq_bind,
    Option.bind_some, List.append_nil]

theorem clientMain_query (J : JsonCpp) (pictures : Pictures) {req url dir : Bytes}
    (name : Option Bytes) {filelist : List Bytes} {v : Json}
    (hreq : caseEq req (ascii "query") = true) (hdir : pictures.scandir dir = some filelist)
    (hv : queryRequest (hashFrames pictures dir filelist) = some v) :
    clientMain J pictures ⟨some req, some url, name, some dir⟩
      = some (.posted [postfields J v]) := by
  have hadd : ¬ caseEq req (ascii "add") = true := by
    intro h
    rw [caseEq_add_query h] at hreq
    cases hreq
  have hname : ¬ (caseEq req (ascii "add") = true ∧ name = none) := fun h => hadd h.1
  simp only [clientMain, if_neg hname, hdir, requests, if_neg hadd, if_pos hreq, hv,
    Option.map_some, Option.bind_eq_bind, Option.bind_some, List.nil_append]

/-! ## What the server makes of a body -/

/-- Nothing is lost between the writer and the socket. -/
theorem postfields_eq {J : JsonCpp} {v : Json} (h : J.RoundTrips v) :
    postfields J v = J.write v := takeWhile_ne_zero h.2

/-- The members of the two requests pass the checks of the server. -/
theorem asksAdd_addRequest (name : Bytes) (frames : List UInt64) :
    AsksAdd (Json.set (addHeader name) (ascii "frames") (framesJson frames)) name
      (frames.map fun f => .int f.toNat) := by
  refine ⟨?_, ?_, Json.find?_set_self _ _ _⟩
  · rw [Json.find?_set_of_ne _ _ (by decide), addHeader, Json.find?_set_of_ne _ _ (by decide),
      Json.find?_set_self]
  · rw [Json.find?_set_of_ne _ _ (by decide), addHeader, Json.find?_set_self]

theorem asksQuery_queryRequest (frames : List UInt64) :
    AsksQuery (Json.set queryHeader (ascii "frames") (framesJson frames))
      (frames.map fun f => .int f.toNat) := by
  refine ⟨?_, Json.find?_set_self _ _ _⟩
  rw [Json.find?_set_of_ne _ _ (by decide), queryHeader, Json.find?_set_self]

/-- What passes the checks of an add is no query, and the other way round. -/
theorem not_asksQuery_of_asksAdd {ms : Members} {name : Bytes} {frames frames' : List Json}
    (h : AsksAdd ms name frames) : ¬ AsksQuery ms frames' := by
  intro hquery
  have htype := h.1.symm.trans hquery.1
  exact absurd (Json.str.inj (Option.some.inj htype)) (by decide)

theorem requestOf_add {J : JsonCpp} {name : Bytes} {frames : List UInt64} {v : Json}
    (hne : frames ≠ []) (hlen : frames.length < 2 ^ 31) (hv : addRequest name frames = some v)
    (hrt : J.RoundTrips v) : requestOf J (postfields J v) = some (.ok (.add name frames)) := by
  rw [addRequest_eq, if_neg hne, Option.some.injEq] at hv
  have hdecode := decodeFrames_map frames
  rw [toNat_toInt_of_lt hlen, List.take_length] at hdecode
  have hasks := asksAdd_addRequest name frames
  rw [requestOf, postfields_eq hrt, parse_cStr hrt, ← hv]
  rcases understand_obj (Json.set (addHeader name) (ascii "frames") (framesJson frames)) with
    ⟨msg, -, hnot, -⟩ | ⟨name', frames', hasks', h⟩ | ⟨frames', hquery, -⟩
  · exact absurd hasks (hnot _ _)
  · obtain rfl := asked_frames_unique (.inl ⟨_, hasks⟩) (.inl ⟨_, hasks'⟩)
    obtain rfl : name = name' :=
      Json.str.inj (Option.some.inj (hasks.2.1.symm.trans hasks'.2.1))
    show understand _ = _
    rw [h, hdecode, Option.map_some]
  · exact absurd hquery (not_asksQuery_of_asksAdd hasks)

theorem requestOf_query {J : JsonCpp} {frames : List UInt64} {v : Json}
    (hne : frames ≠ []) (hlen : frames.length < 2 ^ 31) (hv : queryRequest frames = some v)
    (hrt : J.RoundTrips v) : requestOf J (postfields J v) = some (.ok (.query frames)) := by
  rw [queryRequest_eq, if_neg hne, Option.some.injEq] at hv
  have hdecode := decodeFrames_map frames
  rw [toNat_toInt_of_lt hlen, List.take_length] at hdecode
  have hasks := asksQuery_queryRequest frames
  rw [requestOf, postfields_eq hrt, parse_cStr hrt, ← hv]
  rcases understand_obj (Json.set queryHeader (ascii "frames") (framesJson frames)) with
    ⟨msg, -, -, hnot⟩ | ⟨name', frames', hadd, -⟩ | ⟨frames', hasks', h⟩
  · exact absurd hasks (hnot _)
  · exact absurd hasks (not_asksQuery_of_asksAdd hadd)
  · obtain rfl := asked_frames_unique (.inr hasks) (.inr hasks')
    show understand _ = _
    rw [h, hdecode, Option.map_some]

/-! ## Together -/

/-- A posted body. -/
def posted (path body : Bytes) : HttpRequest := ⟨.HTTP_POST, path, body, false⟩

/-- The reply to a query lists its matches. -/
theorem listed_reply {code : Int} {out : List (Bytes × ℚ)} {rv : Members}
    (h : queryReply code out = some rv) : listed (.obj rv) = out := by
  rw [queryReply_eq, Option.some.injEq] at h
  have hresult : Json.find? rv (ascii "result")
      = if out = [] then none else some (.arr (out.map resultItem)) := by
    rw [← h]
    split
    · rw [Json.find?_set_of_ne _ _ (by decide)]
      rfl
    · exact Json.find?_set_self _ _ _
  rw [listed, hresult]
  by_cases hout : out = []
  · rw [if_pos hout, hout]
  · rw [if_neg hout]
    simp only [List.filterMap_map, Function.comp_def, entryOf_resultItem, List.filterMap_some]

variable {J : JsonCpp} {er : EqualRange UInt64}

/-- A right reply to an add that the server understands. -/
theorem replies_add {h : Holdings} {ch : Chance} {body name : Bytes} {frames : List UInt64}
    (hbody : requestOf J body = some (.ok (.add name frames))) {e : HandlerEnd}
    (he : h.Replies J er ch (.post body) e) :
    e = respond (J.write (addReply (if name ∈ h.live.names then -1 else 0))) := by
  cases he with
  | refused hother | answered hother _ _ => exact nomatch hbody.symm.trans hother
  | added hother =>
      cases hbody.symm.trans hother
      rfl

/-- A right reply to a query that the server understands. -/
theorem replies_query {h : Holdings} {ch : Chance} {body : Bytes} {frames : List UInt64}
    (hbody : requestOf J body = some (.ok (.query frames))) {e : HandlerEnd}
    (he : h.Replies J er ch (.post body) e) :
    ∃ rv, e = respond (J.write (.obj rv)) ∧ Ranked er h.live frames (listed (.obj rv)) := by
  cases he with
  | refused hother | added hother => exact nomatch hbody.symm.trans hother
  | answered hother hout hrv =>
      cases hbody.symm.trans hother
      exact ⟨_, rfl, (listed_reply hrv).symm ▸ hout⟩

/-- A directory of pictures is added under a new name, and later the same
directory is a query. Whatever the server is asked before and in between,
unless it starts again in between, the add is answered with the code 0 and
the query with a list that has the name with score 1. -/
theorem client_finds_what_it_added {pictures : Pictures} {dir : Bytes} {filelist : List Bytes}
    (hdir : pictures.scandir dir = some filelist) {frames : List UInt64}
    (hframes : hashFrames pictures dir filelist = frames) (hne : ∃ x ∈ frames, x ≠ 0)
    (hlen : frames.length < 2 ^ 31) {req req' name : Bytes}
    (hreq : caseEq req (ascii "add") = true) (hreq' : caseEq req' (ascii "query") = true)
    (hadd : ∀ v, addRequest name frames = some v → J.RoundTrips v)
    (hquery : ∀ v, queryRequest frames = some v → J.RoundTrips v)
    (url : Bytes) (name' : Option Bytes) {site : Site} (hsite : site.Opened)
    {before between : List Happening} (hbetween : ∀ o, .restart o ∉ between)
    (hnew : name ∉ ((catalogueService J er).afterAll site.holdings before).live.names) :
    ∃ body body',
      clientMain J pictures ⟨some req, some url, some name, some dir⟩ = some (.posted [body]) ∧
      clientMain J pictures ⟨some req', some url, name', some dir⟩ = some (.posted [body']) ∧
      ∀ ch ch' path path' es, es = before ++ .request ch (posted path body) ::
          (between ++ [.request ch' (posted path' body')]) →
        (catalogueService J er).AllowedAll site.holdings es →
        ∃ rs site' rv, (matchServer J er).serveAll site es = some (rs, site') ∧
          rs[before.length]? = some (some (respond (J.write (addReply 0)))) ∧
          rs.getLast? = some (some (respond (J.write (.obj rv)))) ∧
          (name, 1) ∈ listed (.obj rv) ∧ ∀ r ∈ listed (.obj rv), r.2 ≤ 1 := by
  have hnil : frames ≠ [] := by
    rintro rfl
    obtain ⟨x, hx, -⟩ := hne
    exact nomatch hx
  obtain ⟨v, hv⟩ : ∃ v, addRequest name frames = some v := ⟨_, addRequest_eq name frames⟩
  obtain ⟨v', hv'⟩ : ∃ v, queryRequest frames = some v := ⟨_, queryRequest_eq frames⟩
  have hbody := requestOf_add hnil hlen hv (hadd v hv)
  have hbody' := requestOf_query hnil hlen hv' (hquery v' hv')
  rw [← hframes] at hv hv'
  refine ⟨_, _, clientMain_add J pictures hreq hdir hv,
    clientMain_query J pictures name' hreq' hdir hv', ?_⟩
  rintro ch ch' path path' es rfl hes
  obtain ⟨rs, site', hall, hright, -⟩ := (matchServer_fulfils J er).serveAll hsite.stands hes
  obtain ⟨rs₁, rs₂, rfl, hlen₁, -, hright₂⟩ := Purpose.rightAll_append hright
  rcases rs₂ with _ | ⟨r, rs₂⟩
  · exact hright₂.elim
  obtain ⟨hr, hright₃⟩ := hright₂
  obtain ⟨rs₃, rs₄, rfl, -, -, hright₄⟩ := Purpose.rightAll_append hright₃
  obtain ⟨r', rfl, hr'⟩ := Purpose.rightAll_singleton hright₄
  obtain ⟨e, rfl, he⟩ := hr
  obtain ⟨e', rfl, he'⟩ := hr'
  -- the add is accepted, and nothing in between takes the video away
  generalize hh : (catalogueService J er).afterAll site.holdings before = h at hnew he hright₄ he'
  have hadded : (name, frames)
      ∈ ((catalogueService J er).after h
        (.request ch (posted path (postfields J v)))).live.videos := by
    show (name, frames) ∈ (h.after J ch (.post (postfields J v))).live.videos
    have hinsert : (h.live.insert (name, frames)).videos = (name, frames) ::ₘ h.live.videos :=
      Catalogue.videos_insert_of_not_mem hnew
    simp only [Holdings.after, hbody, hinsert]
    exact Multiset.mem_cons_self _ _
  have hkeeps : ∀ h : Holdings, ∀ q ∈ between, (name, frames) ∈ h.live.videos →
      (name, frames) ∈ ((catalogueService J er).after h q).live.videos := by
    intro h q hq hmem
    exact Multiset.mem_of_le (h.live_le_next J fun o ho => hbetween o (ho ▸ hq)) hmem
  obtain rfl := replies_add hbody he
  obtain ⟨rv, rfl, hranked⟩ := replies_query hbody' he'
  rw [if_neg hnew] at hall
  refine ⟨_, site', rv, hall, ?_, ?_, hranked.finds_self ?_ hne⟩
  · rw [List.getElem?_append_right hlen₁.le, hlen₁, Nat.sub_self]
    rfl
  · simp only [List.getLast?_append, List.getLast?_cons, List.getLast?_nil, Option.getD_none,
      Option.some_or, Option.getD_some]
  · exact Purpose.afterAll_keeps (P := fun h : Holdings => (name, frames) ∈ h.live.videos) hkeeps
      hadded

/-- A directory `d` with two pictures. -/
def twoPictures : Pictures where
  scandir dir := if dir = ascii "d" then
      some [ascii ".", ascii "..", ascii "1.jpg", ascii "2.jpg", ascii "list.txt"]
    else none
  getHashCode filename :=
    if filename = ascii "d/1.jpg" then some 1
    else if filename = ascii "d/2.jpg" then some (2 ^ 64 - 1)
    else none

/-- They are added as `v` and found, with a look at the counters in between. -/
theorem client_finds_two_pictures : ∃ body body' rs site' rv,
    clientMain sampleJson twoPictures ⟨some (ascii "add"), some [], some (ascii "v"),
      some (ascii "d")⟩ = some (.posted [body]) ∧
    clientMain sampleJson twoPictures ⟨some (ascii "query"), some [], none, some (ascii "d")⟩
      = some (.posted [body']) ∧
    (matchServer sampleJson default).serveAll newSite
      [.request smooth (posted [] body), .request smooth (HttpRequest.get (ascii "/info")),
        .request smooth (posted [] body')] = some (rs, site') ∧
    (ascii "v", 1) ∈ listed (.obj rv) := by
  have hframes : hashFrames twoPictures (ascii "d")
      [ascii ".", ascii "..", ascii "1.jpg", ascii "2.jpg", ascii "list.txt"]
        = [1, 2 ^ 64 - 1] := by decide +kernel
  have hadd : ∀ v, addRequest (ascii "v") [1, 2 ^ 64 - 1] = some v → sampleJson.RoundTrips v := by
    intro v hv
    have htext : sampleJson.write v = textAdd := by cases hv; rfl
    exact .of_text htext hv (by decide)
  have hquery : ∀ v, queryRequest [1, 2 ^ 64 - 1] = some v → sampleJson.RoundTrips v := by
    intro v hv
    have htext : sampleJson.write v = textQuery := by cases hv; rfl
    exact .of_text htext hv (by decide)
  have hdir : twoPictures.scandir (ascii "d") = some [ascii ".", ascii "..", ascii "1.jpg",
    ascii "2.jpg", ascii "list.txt"] := rfl
  have hinfo : ∀ o, Happening.restart o ∉ [Happening.request smooth
    (HttpRequest.get (ascii "/info"))] := by simp
  have hnew : ascii "v" ∉ ((catalogueService sampleJson default).afterAll newSite.holdings
    []).live.names := Multiset.notMem_zero _
  obtain ⟨body, body', hbody, hbody', hall⟩ := client_finds_what_it_added hdir hframes
    ⟨1, by decide, by decide⟩ (by decide) (show caseEq (ascii "add") (ascii "add") = true by decide)
    (show caseEq (ascii "query") (ascii "query") = true by decide) hadd hquery [] none
    opened_newSite hinfo hnew
  -- both bodies are understood, so all three requests may come
  obtain ⟨v, hv⟩ : ∃ v, addRequest (ascii "v") [1, 2 ^ 64 - 1] = some v := ⟨_, rfl⟩
  obtain ⟨v', hv'⟩ : ∃ v, queryRequest [1, 2 ^ 64 - 1] = some v := ⟨_, rfl⟩
  have hrequest := requestOf_add (by decide) (by decide) hv (hadd v hv)
  have hrequest' := requestOf_query (by decide) (by decide) hv' (hquery v' hv')
  rw [← hframes] at hv hv'
  have hbodies := hbody.symm.trans (clientMain_add sampleJson twoPictures (by decide) hdir hv)
  have hbodies' :=
    hbody'.symm.trans (clientMain_query sampleJson twoPictures none (by decide) hdir hv')
  obtain rfl : body = postfields sampleJson v := by simpa using hbodies
  obtain rfl : body' = postfields sampleJson v' := by simpa using hbodies'
  have hafter : ((catalogueService sampleJson default).after newSite.holdings
      (.request smooth (posted [] (postfields sampleJson v)))).running = true :=
    (newSite.holdings.after_post sampleJson smooth _).2
  obtain ⟨rs, site', rv, hserve, -, -, hself, -⟩ := hall smooth smooth [] [] _ rfl
    ⟨⟨rfl, fun h => nomatch hrequest.symm.trans h⟩, ⟨hafter, trivial⟩,
      ⟨hafter, fun h => nomatch hrequest'.symm.trans h⟩, trivial⟩
  exact ⟨_, _, rs, site', rv, hbody, hbody', hserve, hself⟩

end VideoMatch.Client
