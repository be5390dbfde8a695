/-
VideoMatch.Browse.VisitTheorems — what a visitor gets over the wire.

A visitor sends the bytes of a request, cut in any way, and reads the bytes
that come back (`fetch`). This goes through the parser, the handler and the
writer of the responses, so what is known of each of them is put together
here: the request is parsed (`feed_of_asks`), the handler answers from the
frames of the listing, and the response is read as it was meant
(`fetch_of_reply`).

So a visitor who asks for the browseall page of a video and follows its
links gets each file of the video, byte for byte, whatever other requests
the server handles in between (`frames_served`). The frames must be the
first files, the video must fit in the cache, and the empty line behind the
headers must still be there when an answer goes out (`Sent.Intact`).
-/
import VideoMatch.Browse.CutTheorems
import VideoMatch.Browse.IsolationTheorems
import VideoMatch.Browse.PagesTheorems
import VideoMatch.Browse.ResponseTheorems

namespace VideoMatch.Browse

open VideoMatch.Cxx VideoMatch.Machine HttpConnection VideoManager

/-! ## Requests -/

/-- The connection that a request comes in on, the reads, and what is in the
place of the empty line behind the headers when the answer goes out. -/
structure Sent where
  conn : HttpConnection
  reads : List Bytes
  ending : Bytes

/-- The temporary copy of `CRLF` has not been overwritten. -/
def Sent.Intact (r : Sent) : Prop := r.ending = CRLF

/-- A `GET` request for a path, with any header lines that fit the size
check, on a connection that no other request is being read from. -/
structure Asks (path : Bytes) (r : Sent) : Prop where
  conn : Reset r.conn
  reads : ∃ hd, HeaderBlock hd ∧ hd.length ≤ 4097 ∧ headOf hd = some ⟨.HTTP_GET, path, 0⟩ ∧
    Cuts hd r.reads

/-- What the visitor reads of the answer, and the server after it. -/
def fetch (disk : Bytes → LoadOutcome) (g : Serving) (r : Sent) :
    Option (Message UInt8 × Serving) :=
  match feed r.conn r.reads with
  | .parsed c =>
      (myHandler disk g c.view).bind fun answer =>
        match c.processRequest (fun _ _ => answer) g with
        | (.respond (some _), c, g) => (http.read (c.bytesOut r.ending)).map fun m => (m.1, g)
        | _ => none
  | _ => none

section

variable {path : Bytes} {r : Sent}

/-- The path is a part of the request. -/
theorem Asks.length_le (h : Asks path r) : path.length ≤ 4097 := by
  obtain ⟨hd, -, hshort, hhead, -⟩ := h.reads
  obtain ⟨p, q, -, -, hpath⟩ := path_of_headOf hhead
  have hlen := congrArg List.length hpath
  simp only [List.length_take, List.length_drop] at hlen
  omega

/-- The request is parsed, and nothing else is known of the connection to
the handler. -/
theorem feed_of_asks (h : Asks path r) : ∃ c, feed r.conn r.reads = .parsed c ∧
    c.path = path ∧ c.headers = UnorderedMap.empty ∧ c.body = [] := by
  obtain ⟨hd, hblock, hshort, hhead, hcuts⟩ := h.reads
  have hempty : RequestType.HTTP_GET = .HTTP_POST → ([] : Bytes).length ≤ 0 :=
    fun _ => le_refl 0
  have hrun := feed_of_head hblock hshort hhead hempty r.reads (p := [])
    (by simpa using hblock.four_le.trans_lt' (by decide)) (by simpa using hcuts.whole)
  have hagrees := feed_agrees r.reads h.conn.shows
  rw [hrun] at hagrees
  cases hfeed : feed r.conn r.reads with
  | parsed c =>
      rw [hfeed] at hagrees
      have hpath : Except.error (.accepted RequestType.HTTP_GET path [])
          = (Except.error (.accepted c.type c.path c.post) : Except Outcome Phase) := hagrees
      rw [Except.error.injEq, Outcome.accepted.injEq] at hpath
      obtain ⟨-, hheaders, hbody⟩ := untouched_feed r.reads hfeed
      obtain ⟨state, type, httpRet, postsize, hconn⟩ := h.conn
      rw [hconn] at hheaders hbody
      exact ⟨c, rfl, hpath.2.1.symm, hheaders, hbody⟩
  | more c =>
      rw [hfeed] at hagrees
      obtain ⟨p, hp, -⟩ := hagrees
      cases hp
  | closed =>
      rw [hfeed] at hagrees
      cases hagrees

end

/-! ## Answers -/

/-- A page or an image with this content type. -/
structure Shows (contentType body : Bytes) (m : Message UInt8) : Prop where
  start : m.start = ascii "HTTP/1.1 200 OK"
  contentType : (ascii "Content-Type", contentType) ∈ m.fields
  body : m.body = body

/-- The connection that answers with a page. -/
theorem reply_headers {c : HttpConnection} (hheaders : c.headers = UnorderedMap.empty)
    (contentType body : Bytes) (g : Serving) (gvm : VideoManager) :
    ((reply contentType body g gvm).2.1.foldl apply c).body = body ∧
      ∀ key, ((reply contentType body g gvm).2.1.foldl apply c).headers.find? key
        = if key = ascii "Server" then some (ascii "Video Browse Server 1.0")
          else if key = ascii "Content-Type" then some contentType else none := by
  refine ⟨rfl, fun key => ?_⟩
  simp only [reply, List.foldl_cons, List.foldl_nil, apply, setHeader, setBody, hheaders,
    UnorderedMap.find?_assign]
  rfl

/-- The answer of the handler reaches the visitor. -/
theorem fetch_of_reply {path : Bytes} {r : Sent} (h : Asks path r) (hintact : r.Intact)
    {disk : Bytes → LoadOutcome}
    {g : Serving} {t : Target} (htarget : target path = some t) {contentType body : Bytes}
    {gvm : VideoManager} (hanswer : answerTo disk g t = some (reply contentType body g gvm))
    (htype : 13 ∉ contentType) (hsize : body.length < 2 ^ 63) :
    ∃ m, fetch disk g r = some (m, (reply contentType body g gvm).2.2) ∧
      Shows contentType body m := by
  obtain ⟨c, hfeed, hpath, hheaders, hbody⟩ := feed_of_asks h
  have hcall : myHandler disk g c.view = some (reply contentType body g gvm) := by
    have hview : target c.view.path = some t := by rw [← htarget, ← hpath]; rfl
    rw [← hanswer]
    exact myHandler_of_target hview
  obtain ⟨hbody', hheaders'⟩ := reply_headers hheaders contentType body g gvm
  obtain ⟨d, hd⟩ : ∃ d, d = { (reply contentType body g gvm).2.1.foldl apply c with
    httpRet := HTTP_200 } := ⟨_, rfl⟩
  have hret : d.sentRet = HTTP_200 := by rw [hd]; rfl
  have hbare : ¬ d.bare := fun hbare => hbare.1 hret
  have hsent : d.sentBody = body := by rw [sentBody, if_neg hbare, hd, hbody']
  have hfind : ∀ key, d.headers.find? key
      = if key = ascii "Server" then some (ascii "Video Browse Server 1.0")
        else if key = ascii "Content-Type" then some contentType else none := by
    rw [hd]
    exact hheaders'
  have hclean : d.Clean := by
    intro key value hvalue
    rw [hfind] at hvalue
    split at hvalue
    · next hkey =>
        rw [hkey, ← Option.some.inj hvalue]
        decide
    · split at hvalue
      · next hkey =>
          rw [hkey, ← Option.some.inj hvalue]
          exact ⟨by decide, by decide, htype⟩
      · cases hvalue
  have hnolength : d.headers.find? (ascii "Content-Length") = none := by
    rw [hfind]
    rfl
  obtain ⟨m, hwritten, hout, hformed, hm, -, hfields, hlength⟩ :=
    beginResponse_message hclean (hsent ▸ hsize)
  have hread : http.read (http.write m) = some (m, []) := by
    have hback := (Layout.read_write_iff (by decide) hformed).mpr ?_ []
    · rwa [List.append_nil] at hback
    · rw [hlength, hm]
      exact (sentHeader_length d).mpr fun value hvalue => by rw [hnolength] at hvalue; cases hvalue
  have hline : statusLine HTTP_200 = ascii "HTTP/1.1 200 OK" := by decide +kernel
  refine ⟨m, ?_, by rw [hm, hret, hline], ?_, by rw [hm, hsent]⟩
  · have hprocess : c.processRequest (fun _ _ => reply contentType body g gvm) g
        = (.respond (some (http.write m)), d.beginResponse.2,
          (reply contentType body g gvm).2.2) := by
      rw [← hwritten, hd]
      rfl
    have hread' : http.read (d.beginResponse.2.bytesOut r.ending) = some (m, []) := by
      rw [hintact, hout]
      exact hread
    simp only [fetch, hfeed, hcall, Option.bind_some, hprocess, hread', Option.map_some]
  · rw [hfields, sentHeader, if_neg (fun h => hbare h.2), hfind]
    rfl

/-- A request is a step of the server. -/
theorem step_of_fetch {cacheSize : Nat} {listfile : Bytes} {disk : Bytes → LoadOutcome}
    {g g' : Serving} {r : Sent} {m : Message UInt8} (h : fetch disk g r = some (m, g')) :
    ∃ conn, (browseServer cacheSize listfile).step g ⟨disk, conn⟩ = some g' := by
  unfold fetch at h
  split at h
  · next c _ =>
      obtain ⟨answer, hcall, h⟩ := Option.bind_eq_some_iff.mp h
      have hstate : (c.processRequest (fun _ _ => answer) g).2.2 = answer.2.2 := by
        unfold processRequest
        dsimp only
        split
        · split <;> rfl
        · rfl
      split at h
      · next hprocess =>
          rw [hprocess] at hstate
          obtain ⟨read, -, heq⟩ := Option.map_eq_some_iff.mp h
          cases heq
          refine ⟨c.view, ?_⟩
          show (myHandler disk g c.view).map (fun answer => answer.2.2) = _
          rw [hcall, Option.map_some, ← hstate]
      · cases h
  · cases h

/-! ## The files -/

section

variable {listing : Listing} {frames : StdMap Int Bytes} {size : Nat}
  (hids : (frameIds listing).Nodup)
  (hsmall : ∀ e ∈ listing.1, ∀ content, e.file = some content → content.length < 2 ^ 31)

include hids hsmall

/-- The frames are the files, byte for byte. -/
theorem entries_readFiles (hread : readFiles listing = some (frames, size)) :
    frames.entries = (listing.1.filter isFrame).map fun e => (atoi e.dName, e.file.getD []) := by
  have hfold : ∀ (es : List DirEntry) {st st' : StdMap Int Bytes × Nat},
      (∀ e ∈ es, ∀ content, e.file = some content → content.length < 2 ^ 31) →
      (st.1.entries.map Prod.fst ++ (es.filter isFrame).map fun e => atoi e.dName).Nodup →
      es.foldlM readFile st = some st' → st'.1.entries
        = st.1.entries ++ (es.filter isFrame).map fun e => (atoi e.dName, e.file.getD []) := by
    intro es
    induction es with
    | nil => intro st st' _ _ h; cases h; simp
    | cons e es ih =>
        intro st st' hsmall hnodup h
        rw [List.foldlM_cons, Option.bind_eq_bind, Option.bind_eq_some_iff] at h
        obtain ⟨t, ht, h⟩ := h
        have hrest := fun hkeys =>
          @ih t st' (fun e he => hsmall e (List.mem_cons_of_mem _ he)) hkeys h
        have hlen : (e.file.getD []).length < 2 ^ 31 := by
          cases hfile : e.file with
          | none => decide
          | some content => exact hsmall e (by simp) content hfile
        rw [readFile_eq, toInt_of_lt hlen, Int.toNat_natCast, List.take_length] at ht
        split at ht
        · cases ht
        · cases hframe : isFrame e with
          | false =>
              rw [hframe] at ht
              simp only [List.filter_cons, hframe] at hnodup ⊢
              cases ht
              exact hrest hnodup
          | true =>
              simp only [hframe, if_true, Option.some.injEq] at ht
              simp only [List.filter_cons, hframe, if_true, List.map_cons] at hnodup ⊢
              have hnew : st.1.find? (atoi e.dName) = none := by
                rw [UnorderedMap.find?_eq_none_iff]
                intro hmem
                exact (List.disjoint_of_nodup_append hnodup) hmem (by simp)
              have hentries : t.1.entries = st.1.entries ++ [(atoi e.dName, e.file.getD [])] := by
                rw [← ht, UnorderedMap.entries_assign_of_none _ _ hnew]
              rw [hrest (by rw [hentries]; simpa using hnodup), hentries]
              simp
  exact hfold listing.1 hsmall (by simpa [frameIds] using hids) hread

theorem find?_readFiles (hread : readFiles listing = some (frames, size)) {e : DirEntry}
    (he : e ∈ listing.1) (hframe : isFrame e = true) {content : Bytes}
    (hfile : e.file = some content) : frames.find? (atoi e.dName) = some content := by
  rw [UnorderedMap.find?_eq_some_iff, entries_readFiles hids hsmall hread]
  refine List.mem_map.mpr ⟨e, List.mem_filter.mpr ⟨he, hframe⟩, ?_⟩
  rw [hfile, Option.getD_some]

omit hids in
theorem readable_of_small : Readable listing := by
  intro e he _ content hfile
  have hlt := hsmall e he content hfile
  rw [toInt_of_lt hlt]
  omega

end

/-! ## A visit -/

theorem length_frameItem_le (key : Bytes) (i : Int) :
    (frameItem key i).length ≤ key.length + 200 := by
  have hdigits : (snprintf 32 (decimal i)).length ≤ 31 := List.length_take_le _ _
  have h₁ : (ascii "<center><img src=\"/image/").length ≤ 50 := by decide
  have h₂ : (ascii "/").length = 1 := by decide
  have h₃ : (ascii "\"align=\"middle\" width=600></center>\n").length ≤ 50 := by decide
  have h₄ : (ascii "<hr noshade size=4 width=600>").length ≤ 50 := by decide
  simp only [frameItem, List.length_append]
  omega

/-- No page is longer than a `long` can say. -/
theorem length_browseallBody_lt {key : Bytes} (hkey : key.length ≤ 4097) {n : Nat}
    (hn : n < 2 ^ 31) : (browseallBody key n).length < 2 ^ 63 := by
  have hitems : ∀ is : List Nat, (is.flatMap fun i => frameItem key (i + 1 : Nat)).length
      ≤ is.length * 4400 := by
    intro is
    induction is with
    | nil => simp
    | cons i is ih =>
        have hitem := length_frameItem_le key (i + 1 : Nat)
        simp only [List.flatMap_cons, List.length_append, List.length_cons]
        omega
  have hall := hitems (List.range n)
  rw [List.length_range] at hall
  have htitle : (snprintf 32 (ascii "Total " ++ decimal (n : Int)
      ++ ascii " frames")).length ≤ 31 := List.length_take_le _ _
  have h₁ : (ascii "<html><head><title>").length ≤ 50 := by decide
  have h₂ : (ascii "</title></head>\n<body><center><h2>").length ≤ 50 := by decide
  have h₃ : (ascii "</h2></center>\n").length ≤ 50 := by decide
  have h₄ : (ascii "</body></html>").length ≤ 50 := by decide
  simp only [browseallBody, List.length_append, Int.toNat_natCast]
  omega

/-- A visitor asks for the browseall page of a video whose frames are the
first files. The page links one image for each frame, in order, and whoever
asks for such an image, after whatever other requests, is sent the file.
The answers must go out intact. -/
theorem frames_served {cacheSize : Nat} {listfile key : Bytes} {listing : Listing}
    (hknown : (startVm cacheSize listfile).rawPath.find? key ≠ none) (hnumbered : Numbered listing)
    (hgap : ∀ i ∈ frameIds listing, ∀ j, 1 ≤ j → j ≤ i → j ∈ frameIds listing)
    (hsmall : ∀ e ∈ listing.1, ∀ content, e.file = some content → content.length < 2 ^ 31)
    (hfits : videoSize listing ≤ cacheSize) (hne : key ≠ []) (hquote : 34 ∉ key)
    {g : Serving} (hg : (browseServer cacheSize listfile).RunsUnder (Decodes key listing) g)
    {disk : Bytes → LoadOutcome} (hdisk : disk key = ⟨true, some listing⟩) {r : Sent}
    (hr : Asks (browseallPath key) r) (hintact : r.Intact) :
    ∃ page g', fetch disk g r = some (page, g') ∧
      (browseServer cacheSize listfile).RunsUnder (Decodes key listing) g' ∧
      Shows (ascii "text/html") page.body page ∧
      (links page.body).length = (frameIds listing).length ∧
      ∀ e ∈ listing.1, isFrame e = true → ∀ content, e.file = some content →
        (links page.body)[(atoi e.dName - 1).toNat]? = some (imageSrc key (atoi e.dName)) ∧
        ∀ g₁, (browseServer cacheSize listfile).RunsUnder (Decodes key listing) g₁ →
          ∀ disk₁, disk₁ key = ⟨true, some listing⟩ →
            ∀ r₁, Asks (imageSrc key (atoi e.dName)) r₁ → r₁.Intact →
              ∃ m g₂, fetch disk₁ g₁ r₁ = some (m, g₂) ∧
                (browseServer cacheSize listfile).RunsUnder (Decodes key listing) g₂ ∧
                Shows (ascii "image/jpeg") content m := by
  have hids := hnumbered.nodup
  have hslash := (key_of_known hknown).1
  have hcount := length_frameIds_lt listing
  obtain ⟨⟨frames, size⟩, hread⟩ :=
    Option.isSome_iff_exists.mp ((readFiles_isSome listing).mpr (readable_of_small hsmall))
  have hnext : ∀ {disk g r m g'}, disk key = ⟨true, some listing⟩ →
      (browseServer cacheSize listfile).RunsUnder (Decodes key listing) g →
      fetch disk g r = some (m, g') →
      (browseServer cacheSize listfile).RunsUnder (Decodes key listing) g' := by
    intro disk g r m g' hdisk hg hfetch
    obtain ⟨conn, hstep⟩ : ∃ conn,
        (browseServer cacheSize listfile).step g ⟨disk, conn⟩ = some g' := step_of_fetch hfetch
    have hdecodes : Decodes key listing g ⟨disk, conn⟩ := hdisk
    exact hg.step hdecodes hstep
  -- the page
  obtain ⟨gvm, hsize⟩ := lookupSize_run hread hknown hfits hids hg
  have hnot : ¬ ((frameIds listing).length : Int) < 0 := by omega
  have hpath : key.length ≤ 4097 := by
    have hle := hr.length_le
    simp only [browseallPath, List.length_append] at hle
    omega
  have hanswer : answerTo disk g (.browseall key) = some (reply (ascii "text/html")
      (browseallBody key (frameIds listing).length) g gvm) := by
    rw [answerTo, hdisk, hsize, Option.map_some, if_neg hnot]
  obtain ⟨page, hfetch, hpage⟩ := fetch_of_reply hr hintact (target_browseallPath hslash hne)
    hanswer (by decide) (length_browseallBody_lt hpath hcount)
  have hlinks := links_browseallBody hquote (frameIds listing).length
  rw [← hpage.body] at hlinks
  refine ⟨page, _, hfetch, hnext hdisk hg hfetch, ⟨hpage.start, hpage.contentType, rfl⟩, ?_, ?_⟩
  · rw [hlinks, List.length_map, List.length_range]
  intro e he hframe content hfile
  have hid : atoi e.dName ∈ frameIds listing :=
    List.mem_map.mpr ⟨e, List.mem_filter.mpr ⟨he, hframe⟩, rfl⟩
  obtain ⟨hpos, hle⟩ := (mem_iff_of_no_gap hids hnumbered.pos hgap _).mp hid
  obtain ⟨n, hn⟩ : ∃ n : Nat, atoi e.dName = n := ⟨(atoi e.dName).toNat, by omega⟩
  rw [hn]
  refine ⟨?_, fun g₁ hg₁ disk₁ hdisk₁ r₁ hr₁ hintact₁ => ?_⟩
  · have hindex : ((n : Int) - 1).toNat = n - 1 := by omega
    have hsucc : n - 1 + 1 = n := by omega
    rw [hlinks, hindex, List.getElem?_map, List.getElem?_range (by omega), Option.map_some, hsucc]
  -- the image
  obtain ⟨vm', hlookup⟩ := (holds_of_run hread hg₁).lookup_eq hread hknown hfits n []
  have hfound : frameAnswer frames n [] = (0, content) := by
    rw [frameAnswer, ← hn, find?_readFiles hids hsmall hread he hframe hfile]
  rw [hfound] at hlookup
  have hanswer₁ : answerTo disk₁ g₁ (.image key n)
      = some (reply (ascii "image/jpeg") content g₁ vm') := by
    rw [answerTo, hdisk₁, hlookup, Option.map_some, if_neg (lt_irrefl 0)]
  have hsize₁ : content.length < 2 ^ 63 := by
    have hlt := hsmall e he content hfile
    omega
  obtain ⟨m, hfetch₁, hm⟩ := fetch_of_reply hr₁ hintact₁ (target_imageSrc hslash hne (by omega))
    hanswer₁ (by decide) hsize₁
  exact ⟨m, _, hfetch₁, hnext hdisk₁ hg₁ hfetch₁, hm⟩

/-- A request without further header lines, in one read. -/
def getRequest (path : Bytes) : Sent :=
  ⟨(new .kProcessing .HTTP_INVALID 0 0).start,
    [ascii "GET " ++ path ++ ascii " HTTP/1.1\r\n\r\n"], CRLF⟩

def diskOfTwo (_ : Bytes) : LoadOutcome := ⟨true, some (listingOfTwo [7])⟩

theorem frames_served_two : ∃ page g', fetch diskOfTwo { gvm := startVm 2 (ascii "v.pickle") }
      (getRequest (ascii "/browseall/v/")) = some (page, g') ∧
    (links page.body)[1]? = some (ascii "/image/v/2") ∧
    ∃ m g₂, fetch diskOfTwo g' (getRequest (ascii "/image/v/2")) = some (m, g₂) ∧
      m.body = [7] := by
  have hknown : (startVm 2 (ascii "v.pickle")).rawPath.find? (ascii "v") ≠ none := by
    decide +kernel
  have hnumbered : Numbered (listingOfTwo [7]) := ⟨2, by decide +kernel⟩
  have hframes : frameIds (listingOfTwo [7]) = [1, 2] := by decide +kernel
  have hgap : ∀ i ∈ frameIds (listingOfTwo [7]), ∀ j, 1 ≤ j → j ≤ i →
      j ∈ frameIds (listingOfTwo [7]) := by
    rw [hframes]
    intro i hi j hj hji
    simp only [List.mem_cons, List.not_mem_nil, or_false] at hi ⊢
    omega
  have hsmall : ∀ e ∈ (listingOfTwo [7]).1, ∀ content, e.file = some content →
      content.length < 2 ^ 31 := by
    intro e he content hfile
    simp only [listingOfTwo, List.mem_cons, List.not_mem_nil, or_false] at he
    rcases he with rfl | rfl <;> cases hfile <;> decide
  have hreset : ∀ path, Reset (getRequest path).conn :=
    fun _ => ⟨.kProcessing, .HTTP_INVALID, 0, 0, rfl⟩
  have hpage : Asks (browseallPath (ascii "v")) (getRequest (ascii "/browseall/v/")) :=
    ⟨hreset _, ascii "GET /browseall/v/ HTTP/1.1\r\n\r\n", ⟨26, by decide +kernel, by decide⟩,
      by decide, by decide +kernel, cuts_one (by decide) (by decide)⟩
  have himage : Asks (imageSrc (ascii "v") 2) (getRequest (ascii "/image/v/2")) :=
    ⟨hreset _, ascii "GET /image/v/2 HTTP/1.1\r\n\r\n", ⟨23, by decide +kernel, by decide⟩,
      by decide, by decide +kernel, cuts_one (by decide) (by decide)⟩
  have hdisk : diskOfTwo (ascii "v") = ⟨true, some (listingOfTwo [7])⟩ := rfl
  obtain ⟨page, g', hfetch, hg', -, -, hfiles⟩ := frames_served hknown hnumbered hgap hsmall
    (by decide +kernel) (by decide) (by decide) (.init rfl) hdisk hpage rfl
  have hfile := hfiles ⟨ascii "2.jpg", some [7]⟩ (by simp [listingOfTwo]) (by decide +kernel)
    [7] rfl
  have hnumber : atoi (ascii "2.jpg") = 2 := by decide +kernel
  have hsrc : imageSrc (ascii "v") 2 = ascii "/image/v/2" := by decide +kernel
  rw [hnumber] at hfile
  obtain ⟨m, g₂, hfetch₂, -, hshows⟩ := hfile.2 g' hg' diskOfTwo hdisk _ himage rfl
  exact ⟨page, g', hfetch, hsrc ▸ hfile.1, m, g₂, hfetch₂, hshows.body⟩

end VideoMatch.Browse
