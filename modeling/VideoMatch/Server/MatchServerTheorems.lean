/-
VideoMatch.Server.MatchServerTheorems — the match server is a catalogue
that can be saved.

`Holdings` is what the server is for: the videos it has, and those it would
start with again. `catalogueService` says when a request may come, which
replies are right, and what becomes of the holdings. Only a save and an add
change them, and what a restart brings back is what was saved last.

* `myHandler_eq`: off the thread pool the handler only shows counters and
  texts, and asks for the pool otherwise; in the pool it does the work and
  never asks again.
* `Action.perform_fulfils`: one action, on any store that has the invariant.
* `serves_catalogue`: any number of requests and restarts.
* `querykey_finds_itself`: after them, the path made of the prefix and the
  key of a video the server has leads to this video.
-/
import VideoMatch.Server.MatchServer
import VideoMatch.Server.PlainTheorems

namespace VideoMatch.Server

open VideoMatch.Cxx VideoMatch.Machine

variable (J : JsonCpp) (er : EqualRange UInt64)

/-! ## One request -/

/-- The handler asks for the thread pool exactly for the actions that belong
there, and carries out the others. -/
theorem myHandler_eq (ch : Chance) (s : MatchServer) (req : HttpRequest) :
    myHandler J er ch s req = if req.action.pooled && !req.inThreadpool
      then some (.switchThread, s) else req.action.perform J er ch s := by
  obtain ⟨type, path, postdata, pool⟩ := req
  cases type with
  | HTTP_GET =>
      simp only [myHandler, HttpRequest.action]
      by_cases hinfo : path = ascii "/info"
      · simp only [if_pos hinfo]
        rfl
      by_cases hexit : path = ascii "/exit"
      · simp only [if_neg hinfo, if_pos hexit]
        rfl
      by_cases hsave : path = SAVE
      · simp only [if_neg hinfo, if_neg hexit, if_pos hsave, if_pos (Or.inl hsave)]
        cases pool <;> rfl
      by_cases hkey : prefixeq path QUERYKEY = true
      · simp only [if_neg hinfo, if_neg hexit, if_neg hsave, if_pos hkey,
          if_pos (Or.inr (Or.inr hkey))]
        cases pool <;> rfl
      by_cases hplain : prefixeq path QUERYKEYPLAIN = true
      · simp only [if_neg hinfo, if_neg hexit, if_neg hsave, if_neg hkey, if_pos hplain,
          if_pos (Or.inr (Or.inl hplain))]
        cases pool <;> rfl
      · have hnone : ¬ (path = SAVE ∨ prefixeq path QUERYKEYPLAIN = true ∨
            prefixeq path QUERYKEY = true) := by
          simp only [not_or]
          exact ⟨hsave, hplain, hkey⟩
        simp only [if_neg hinfo, if_neg hexit, if_neg hsave, if_neg hkey, if_neg hplain,
          if_neg hnone]
        rfl
  | HTTP_POST => cases pool <;> rfl
  | _ => rfl

/-- Nothing that an action comes to is a switch of threads. -/
theorem Action.perform_ne_switch {ch : Chance} {s s' : MatchServer} (a : Action)
    {result : HandlerEnd} (h : a.perform J er ch s = some (result, s')) :
    result ≠ .switchThread := by
  cases a with
  | save | queryKey _ _ | post _ =>
      obtain ⟨r, -, heq⟩ := Option.map_eq_some_iff.mp h
      cases heq
      simp [respond]
  | info | exit | showText _ =>
      cases h
      simp [respond]

/-- A request from the I/O thread on is its action. -/
theorem serve_eq (ch : Chance) (s : MatchServer) (req : HttpRequest) :
    serve J er ch s req = req.action.perform J er ch s := by
  have hio := myHandler_eq J er ch s { req with inThreadpool := false }
  have hpool := myHandler_eq J er ch s { req with inThreadpool := true }
  rw [Bool.not_true, Bool.and_false, if_neg Bool.false_ne_true] at hpool
  rw [Bool.not_false, Bool.and_true] at hio
  replace hio : myHandler J er ch s { req with inThreadpool := false }
      = if req.action.pooled then some (.switchThread, s) else req.action.perform J er ch s := hio
  rw [serve, hio]
  by_cases hpooled : req.action.pooled = true
  · simp only [if_pos hpooled, Option.bind_eq_bind, Option.bind_some]
    exact hpool
  · rw [if_neg hpooled, Option.bind_eq_bind]
    cases hperf : req.action.perform J er ch s with
    | none => rfl
    | some r =>
        obtain ⟨result, s'⟩ := r
        have hne := req.action.perform_ne_switch J er hperf
        rw [Option.bind_some]
        cases result with
        | switchThread => exact absurd rfl hne
        | _ => rfl

/-! ## What the server is for -/

/-- The videos the server has, those it would start with again, and whether
it runs. -/
structure Holdings where
  live : Catalogue
  saved : Catalogue
  running : Bool

/-- The matches of a query, the best first. -/
def Ranked (er : EqualRange UInt64) (c : Catalogue) (q : List UInt64)
    (out : List (Bytes × ℚ)) : Prop :=
  (out : Multiset (Bytes × ℚ)) = c.scan er q ∧ out.Pairwise fun a b => b.2 ≤ a.2

/-- A video with a non-blank frame is among its own matches with score 1,
and nothing scores higher. -/
theorem Ranked.finds_self {er : EqualRange UInt64} {c : Catalogue} {name : Bytes}
    {frames : List UInt64} {out : List (Bytes × ℚ)} (h : Ranked er c frames out)
    (hv : (name, frames) ∈ c.videos) (hne : ∃ x ∈ frames, x ≠ 0) :
    (name, 1) ∈ out ∧ ∀ r ∈ out, r.2 ≤ 1 := by
  obtain ⟨x, hx, hx0⟩ := hne
  have hmem : ∀ r, r ∈ out ↔ r ∈ c.scan er frames := fun r => by rw [← h.1, Multiset.mem_coe]
  refine ⟨?_, fun r hr => ?_⟩
  · rw [hmem, Catalogue.mem_scan]
    refine ⟨frames, hv, ⟨x, hx, hx0, hx⟩, VideoDB.not_lengthDiffers_self frames, ?_, ?_⟩
    · exact checkCandidate_self er (List.length_pos_of_mem hx)
    · norm_num [VideoDB.threshold]
  · rw [hmem, Catalogue.mem_scan] at hr
    obtain ⟨bf, -, -, -, hscore, -⟩ := hr
    obtain ⟨score, hscore', -, hle⟩ := checkCandidate_total er bf frames
    rw [hscore, Option.some.injEq] at hscore'
    exact hscore' ▸ hle

namespace Holdings

/-- The holdings after an action. -/
def after (h : Holdings) (ch : Chance) : Action → Holdings
  | .save => if ch.opens then { h with saved := h.live } else h
  | .exit => { h with running := false }
  | .post body =>
      match requestOf J body with
      | some (.ok (.add name frames)) => { h with live := h.live.insert (name, frames) }
      | _ => h
  | _ => h

/-- A save is answered in full and finds a store that the format and the
block can hold; a posted body does not make the JSON library raise. -/
def Allows (h : Holdings) (ch : Chance) : Action → Prop
  | .save => ch.opens → h.live.Encodable ∧ (∀ n ∈ h.live.names, n.length ≤ 8183) ∧
      ∀ i, ch.out i = .full
  | .post body => requestOf J body ≠ none
  | _ => True

/-- The right replies. The size of the frame table is not a matter of the
catalogue alone. -/
inductive Replies (h : Holdings) (ch : Chance) : Action → HandlerEnd → Prop
  | info (n : Int) : Replies h ch .info (respond (J.write (.obj (Json.set (Json.set (Json.set []
      (ascii "video_count") (.int (toInt h.live.videos.card)))
      (ascii "frames_count") (.int (toInt h.live.frameTotal)))
      (ascii "frame_table_size") (.int n)))))
  | exit : Replies h ch .exit .exits
  | save : Replies h ch .save (respond (ascii "Done\n"))
  | missing {key : Bytes} (hkey : key ∉ h.live.names) :
      Replies h ch (.queryKey key false) (respond (J.write (badRpl "Key not found")))
  | missingPlain {key : Bytes} (hkey : key ∉ h.live.names) :
      Replies h ch (.queryKey key true) (respond [])
  | found {key : Bytes} {frames : List UInt64} {out : List (Bytes × ℚ)} {rv : Members}
      (hkey : (key, frames) ∈ h.live.videos) (hout : Ranked er h.live frames out)
      (hrv : queryReply (toInt out.length) out = some rv) :
      Replies h ch (.queryKey key false)
        (respond (J.write (.obj (Json.set rv (ascii "time_ms") (.int ch.timeMs)))))
  | foundPlain {key : Bytes} {frames : List UInt64} {out : List (Bytes × ℚ)}
      (hkey : (key, frames) ∈ h.live.videos) (hout : Ranked er h.live frames out) :
      Replies h ch (.queryKey key true) (respond (out.flatMap fun r => plainLine key r.1 r.2))
  | refused {body : Bytes} {msg : String} (hbody : requestOf J body = some (.error msg)) :
      Replies h ch (.post body) (respond (J.write (badRpl msg)))
  | added {body name : Bytes} {frames : List UInt64}
      (hbody : requestOf J body = some (.ok (.add name frames))) :
      Replies h ch (.post body)
        (respond (J.write (addReply (if name ∈ h.live.names then -1 else 0))))
  | answered {body : Bytes} {frames : List UInt64} {out : List (Bytes × ℚ)} {rv : Members}
      (hbody : requestOf J body = some (.ok (.query frames))) (hout : Ranked er h.live frames out)
      (hrv : queryReply (toInt out.length) out = some rv) :
      Replies h ch (.post body) (respond (J.write (.obj rv)))
  | showText (text : Bytes) : Replies h ch (.showText text) (respond text)

/-- The next process starts with what was saved. -/
def next (h : Holdings) : Happening → Holdings
  | .request ch req => h.after J ch req.action
  | .restart _ => { h with live := h.saved, running := true }

def MayCome (h : Holdings) : Happening → Prop
  | .request ch req => h.running ∧ h.Allows J ch req.action
  | .restart _ => True

def Answers (h : Holdings) : Happening → Option HandlerEnd → Prop
  | .request ch req, r => ∃ e, r = some e ∧ h.Replies J er ch req.action e
  | .restart _, r => r = none

end Holdings

def catalogueService : Purpose Holdings Happening (Option HandlerEnd) where
  allowed := Holdings.MayCome J
  right := Holdings.Answers J er
  after := Holdings.next J

/-- The store is the catalogue, and the file decodes to what was saved. -/
structure Keeps (s : MatchServer) (live saved : Catalogue) : Prop where
  inv : s.vdb.Inv
  live : s.vdb.catalogue = live
  saved : VideoDB.DecodesTo (s.fs.contents .db) saved

def Site.Stands (site : Site) (h : Holdings) : Prop :=
  Keeps site.server h.live h.saved ∧ site.running = h.running

/-! ## One action -/

/-- A query appends nothing to what the catalogue has. -/
theorem queryFrames_ranked {s : VideoDB} (hs : s.Inv) (o : HashOrder) (q : List UInt64) :
    ∃ out, VideoDB.queryFrames er o s q [] = some (toInt out.length, out, s) ∧
      Ranked er s.catalogue q out := by
  obtain ⟨out, hquery, hout, hsorted⟩ := VideoDB.queryFrames_spec hs er o q []
  rw [Multiset.coe_nil, Multiset.zero_add] at hout
  exact ⟨out, hquery, hout, hsorted⟩

/-- A query by key that the store does not have. -/
theorem query_missing {s : VideoDB} (hs : s.Inv) (o : HashOrder) (timeMs : Int) {key : Bytes}
    (h : key ∉ s.catalogue.names) :
    query J er o timeMs s key false = some (J.write (badRpl "Key not found"), s) ∧
    query J er o timeMs s key true = some ([], s) := by
  rcases VideoDB.queryName_spec hs key (DataItem.ofFrames [] []) with ⟨-, hname⟩ |
    ⟨frames, item, hmem, -⟩
  · simp [query, handleKey, handleKeyPlain, hname]
  · exact absurd (Multiset.mem_map_of_mem Prod.fst hmem) h

/-- A query by key that the store has. -/
theorem query_found {s : VideoDB} (hs : s.Inv) (o : HashOrder) (timeMs : Int) {key : Bytes}
    {frames : List UInt64} (h : (key, frames) ∈ s.catalogue.videos) :
    ∃ out rv, Ranked er s.catalogue frames out ∧ queryReply (toInt out.length) out = some rv ∧
      query J er o timeMs s key false
        = some (J.write (.obj (Json.set rv (ascii "time_ms") (.int timeMs))), s) ∧
      query J er o timeMs s key true
        = some (out.flatMap fun r => plainLine key r.1 r.2, s) := by
  obtain ⟨out, hquery, hout⟩ := queryFrames_ranked er hs o frames
  obtain ⟨⟨rv, hrv, hkey⟩, hplain⟩ :=
    VideoDB.handleKey_eq hs er o timeMs (VideoDB.mem_catalogue.mp h) hquery
  refine ⟨out, rv, hout, hrv, ?_, ?_⟩
  · rw [query, if_neg (by decide), hkey]
    rfl
  · rw [query, if_pos rfl, hplain]

/-- A posted body that the JSON library does not raise on. -/
theorem process_fulfils {s : VideoDB} (hs : s.Inv) (h : Holdings) (hlive : s.catalogue = h.live)
    (ch : Chance) {body : Bytes} (hbody : requestOf J body ≠ none) :
    ∃ reply s', process J er ch.o s body = some (reply, s') ∧
      h.Replies J er ch (.post body) (respond reply) ∧ s'.Inv ∧
      s'.catalogue = (h.after J ch (.post body)).live := by
  obtain ⟨r, hr⟩ := Option.ne_none_iff_exists'.mp hbody
  have hhandle : handle J er ch.o s body = answer er ch.o s r := by rw [handle_eq, hr]; rfl
  cases r with
  | error msg =>
      refine ⟨_, s, by rw [process, hhandle]; rfl, .refused hr, hs, ?_⟩
      simp only [Holdings.after, hr, hlive]
  | ok r =>
      cases r with
      | query frames =>
          obtain ⟨out, hquery, hout⟩ := queryFrames_ranked er hs ch.o frames
          have hrv := queryReply_eq (toInt out.length) out
          refine ⟨_, s, ?_, .answered hr (hlive ▸ hout) hrv, hs, ?_⟩
          · rw [process, hhandle]
            simp only [answer, carryOut, hquery, hrv, Option.bind_some, Option.map_some]
          · simp only [Holdings.after, hr, hlive]
      | add name frames =>
          obtain ⟨s', hadd, hinv, hcat⟩ :=
            VideoDB.add_catalogue hs ch.o (DataItem.ofFrames name frames)
          refine ⟨_, s', ?_, .added hr, hinv, ?_⟩
          · rw [process, hhandle, ← hlive]
            simp only [answer, carryOut, hadd, Option.map_some]
            rfl
          · simp only [Holdings.after, hr, ← hlive, hcat]
            rfl

@[simp] theorem keepsRunning_respond (body : Bytes) : (respond body).keepsRunning = true := rfl

/-- What a post does not change. -/
theorem Holdings.after_post (h : Holdings) (ch : Chance) (body : Bytes) :
    (h.after J ch (.post body)).saved = h.saved ∧
    (h.after J ch (.post body)).running = h.running := by
  simp only [Holdings.after]
  split <;> exact ⟨rfl, rfl⟩

/-- A save that opens its file, answered in full. -/
theorem save_fulfils {s : MatchServer} {live saved : Catalogue} (hs : Keeps s live saved)
    (ch : Chance) (hopens : ch.opens = true) (henc : live.Encodable)
    (hlen : ∀ n ∈ live.names, n.length ≤ 8183) (hfull : ∀ i, ch.out i = .full) :
    ∃ fs', VideoDB.save ch.o s.fs s.vdb ch.opens ch.out = some (0, fs', s.vdb) ∧
      Keeps ⟨s.vdb, fs'⟩ live live := by
  obtain rfl := hs.live
  obtain ⟨-, fs', stale, -, -, hsave, hdb⟩ :=
    VideoDB.save_full hs.inv ch.o s.fs ch.out hlen fun i _ => hfull i
  refine ⟨fs', by rw [hopens, hsave], hs.inv, rfl, ?_⟩
  show VideoDB.DecodesTo (fs'.contents .db) s.vdb.catalogue
  rw [hdb]
  exact VideoDB.decodesTo_encode ch.o henc hlen stale

/-- One action on the store and the files. -/
theorem Action.perform_fulfils {s : MatchServer} {h : Holdings} (hs : Keeps s h.live h.saved)
    (hrun : h.running = true) {ch : Chance} {a : Action} (hok : h.Allows J ch a) :
    ∃ result s', a.perform J er ch s = some (result, s') ∧ h.Replies J er ch a result ∧
      Keeps s' (h.after J ch a).live (h.after J ch a).saved ∧
      result.keepsRunning = (h.after J ch a).running := by
  cases a with
  | info =>
      refine ⟨_, s, rfl, ?_, hs, hrun.symm⟩
      rw [VideoMatch.Server.info, VideoDB.count_spec hs.inv, VideoDB.framesCount_spec hs.inv,
        hs.live]
      exact .info _
  | exit => exact ⟨_, s, rfl, .exit, hs, rfl⟩
  | showText text => exact ⟨_, s, rfl, .showText text, hs, hrun.symm⟩
  | save =>
      by_cases hopens : ch.opens = true
      · obtain ⟨henc, hlen, hfull⟩ := hok hopens
        obtain ⟨fs', hsave, hkeeps⟩ := save_fulfils hs ch hopens henc hlen hfull
        refine ⟨_, ⟨s.vdb, fs'⟩, by rw [Action.perform, hsave]; rfl, .save, ?_, ?_⟩
        · simpa only [Holdings.after, if_pos hopens] using hkeeps
        · rw [Holdings.after, if_pos hopens, keepsRunning_respond, hrun]
      · -- the file does not open, and the reply is the same
        have hsave : VideoDB.save ch.o s.fs s.vdb ch.opens ch.out = some (-1, s.fs, s.vdb) := by
          rw [VideoDB.save, if_neg hopens]
        refine ⟨_, s, by rw [Action.perform, hsave]; rfl, .save, ?_, ?_⟩
        · simpa only [Holdings.after, if_neg hopens] using hs
        · rw [Holdings.after, if_neg hopens, keepsRunning_respond, hrun]
  | queryKey key plain =>
      have hanswer : ∃ reply, query J er ch.o ch.timeMs s.vdb key plain = some (reply, s.vdb) ∧
          h.Replies J er ch (.queryKey key plain) (respond reply) := by
        by_cases hkey : key ∈ h.live.names
        · obtain ⟨⟨name, frames⟩, hmem, rfl⟩ := Multiset.mem_map.mp hkey
          rw [← hs.live] at hmem
          obtain ⟨out, rv, hout, hrv, hjson, htext⟩ :=
            query_found J er hs.inv ch.o ch.timeMs hmem
          rw [hs.live] at hmem hout
          cases plain with
          | false => exact ⟨_, hjson, .found hmem hout hrv⟩
          | true => exact ⟨_, htext, .foundPlain hmem hout⟩
        · rw [← hs.live] at hkey
          obtain ⟨hjson, htext⟩ := query_missing J er hs.inv ch.o ch.timeMs hkey
          rw [hs.live] at hkey
          cases plain with
          | false => exact ⟨_, hjson, .missing hkey⟩
          | true => exact ⟨_, htext, .missingPlain hkey⟩
      obtain ⟨reply, hquery, hreply⟩ := hanswer
      exact ⟨_, s, by rw [Action.perform, hquery]; rfl, hreply, hs, hrun.symm⟩
  | post body =>
      obtain ⟨reply, vdb, hprocess, hreply, hinv, hcat⟩ :=
        process_fulfils J er hs.inv h hs.live ch hok
      obtain ⟨hsaved, hrunning⟩ := h.after_post J ch body
      refine ⟨_, { s with vdb := vdb }, by rw [Action.perform, hprocess]; rfl, hreply,
        ⟨hinv, hcat, hsaved ▸ hs.saved⟩, ?_⟩
      rw [hrunning, hrun, keepsRunning_respond]

/-- Only a restart takes videos away. -/
theorem Holdings.live_le_next (h : Holdings) {e : Happening} (he : ∀ o, e ≠ .restart o) :
    h.live.videos ≤ (h.next J e).live.videos := by
  cases e with
  | restart o => exact absurd rfl (he o)
  | request ch req =>
      show h.live.videos ≤ (h.after J ch req.action).live.videos
      cases req.action with
      | save =>
          simp only [Holdings.after]
          split <;> exact le_rfl
      | post body =>
          simp only [Holdings.after]
          split
          · exact h.live.le_insert _
          · exact le_rfl
      | _ => exact le_rfl

/-! ## Any number of requests -/

/-- The match server fulfils its purpose, in one happening. -/
theorem matchServer_fulfils : Fulfils (matchServer J er) (catalogueService J er) Site.Stands := by
  rintro site h e ⟨hkeeps, hrunning⟩ hok
  cases e with
  | request ch req =>
      obtain ⟨hrun, hok⟩ := hok
      obtain ⟨result, s', hperf, hreply, hkeeps', hrun'⟩ :=
        Action.perform_fulfils J er hkeeps hrun hok
      refine ⟨some result, ⟨s', result.keepsRunning⟩, ?_, ⟨result, rfl, hreply⟩, hkeeps', hrun'⟩
      show Site.serve J er site (.request ch req) = _
      rw [Site.serve, if_pos (hrunning.trans hrun), serve_eq, hperf]
      rfl
  | restart o =>
      obtain ⟨vdb, hload, hcat⟩ := hkeeps.saved o
      refine ⟨none, ⟨{ site.server with vdb := vdb }, true⟩, ?_, rfl, ?_, rfl⟩
      · show Site.serve J er site (.restart o) = _
        rw [Site.serve, hload]
        rfl
      · exact ⟨VideoDB.Loaded.inv ⟨o, _, 0, hload⟩, hcat, hkeeps.saved⟩

/-- The first process has loaded what it found. -/
def Site.Opened (site : Site) : Prop :=
  site.running = true ∧
    ∃ o r, VideoDB.load o (site.server.fs.contents .db) VideoDB.fresh = some (r, site.server.vdb)

/-- What a process starts with. -/
def Site.holdings (site : Site) : Holdings where
  live := site.server.vdb.catalogue
  saved := site.server.vdb.catalogue
  running := true

theorem Site.Opened.stands {site : Site} (h : site.Opened) : site.Stands site.holdings := by
  obtain ⟨hrun, o, r, hload⟩ := h
  exact ⟨⟨VideoDB.Loaded.inv ⟨o, _, r, hload⟩, rfl, VideoDB.decodesTo_of_load hload⟩, hrun⟩

/-- The server in an empty directory. -/
def newSite : Site := ⟨⟨VideoDB.fresh, ⟨fun _ => none, fun _ => [], 0⟩⟩, true⟩

/-- Everything succeeds. -/
def smooth : Chance := ⟨default, 0, true, fun _ => .full⟩

/-- What the text `add` is parsed to. -/
abbrev addsV : JsonCpp := parsesOnly (ascii "add") addV

theorem opened_newSite : newSite.Opened := ⟨rfl, default, 0, rfl⟩

end VideoMatch.Server
