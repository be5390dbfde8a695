/-
VideoMatch.Browse.PagesTheorems — the pages are closed under their links.

`LinksClosed` says it for one video and all runs of the server: each link
of a page of the video leads to an image or a page of the same video, with
a number up to the number of frames, and is answered; and a browseall page
links each frame once.

The numbers on the pages count the frames, and the files are looked up by
their own numbers. So the frames must be the first files. The addresses of
the pages must fit their buffer up to the key, and the key must not end
its own quotes (`pages_closed_iff`).
-/
import VideoMatch.Browse.HandlerTheorems
import VideoMatch.Browse.PageLinks

namespace VideoMatch.Browse

open VideoMatch.Cxx VideoMatch.Machine HttpConnection VideoManager

/-! ## The property -/

/-- The body that the handler has set. -/
def bodyOf (changes : List Change) : Bytes :=
  (changes.filterMap fun
    | .setBody body => some body
    | .setHeader _ _ => none).getLast?.getD []

section

variable (cacheSize : Nat) (listfile key : Bytes) (listing : Listing)

/-- In every state of a run, a request for `path` is answered with 200 and
a good body. -/
def Answered (path : Bytes) (good : Bytes → Prop) : Prop :=
  ∀ g, (browseServer cacheSize listfile).RunsUnder (Decodes key listing) g →
    ∀ r, Decodes key listing g r → r.conn.path = path →
      ∃ changes g', myHandler r.disk g r.conn = some (HTTP_200, changes, g') ∧
        good (bodyOf changes)

/-- The link leads to an image or a page of the key with a number up to
`frmCnt`, and is answered. -/
def LinkOk (frmCnt : Int) (link : Bytes) : Prop :=
  (∃ id, 1 ≤ id ∧ id ≤ frmCnt ∧
    (target link = some (.image key id) ∨ target link = some (.browse key id))) ∧
  Answered cacheSize listfile key listing link fun _ => True

/-- `Lookup` finds the frame. -/
def Stored (id : Int) : Prop :=
  ∃ g, (browseServer cacheSize listfile).RunsUnder (Decodes key listing) g ∧
    ∃ content vm', g.gvm.lookup key id [] ⟨true, some listing⟩ = some (0, content, vm')

/-- The pages of a video are closed under their links; `frmCnt` is what
`LookupSize` returns. -/
structure LinksClosed (frmCnt : Int) : Prop where
  counts : ∀ g, (browseServer cacheSize listfile).RunsUnder (Decodes key listing) g →
    ∃ vm', g.gvm.lookupSize key ⟨true, some listing⟩ = some (frmCnt, vm')
  browse : ∀ id, 1 ≤ id → id ≤ frmCnt → (∃ path, target path = some (.browse key id)) ∧
    ∀ path, target path = some (.browse key id) →
      Answered cacheSize listfile key listing path fun body =>
        ∀ link ∈ links body, LinkOk cacheSize listfile key listing frmCnt link
  browseall : (∃ path, target path = some (.browseall key)) ∧
    ∀ path, target path = some (.browseall key) →
      Answered cacheSize listfile key listing path fun body =>
        (∀ link ∈ links body, LinkOk cacheSize listfile key listing frmCnt link) ∧
        ∀ id, Stored cacheSize listfile key listing id →
          (links body).countP (fun link => target link = some (.image key id)) = 1

end

/-! ## Numbers -/

/-- Distinct numbers from 1 on that leave no gap are the first ones. -/
theorem mem_iff_of_no_gap {ids : List Int} (hnodup : ids.Nodup) (hpos : ∀ i ∈ ids, 1 ≤ i)
    (hgap : ∀ i ∈ ids, ∀ j, 1 ≤ j → j ≤ i → j ∈ ids) (id : Int) :
    id ∈ ids ↔ 1 ≤ id ∧ id ≤ ids.length := by
  have hcard : ids.toFinset.card = ids.length := List.toFinset_card_of_nodup hnodup
  constructor
  · intro hid
    have hsub : Finset.Icc 1 id ⊆ ids.toFinset := by
      intro j hj
      rw [Finset.mem_Icc] at hj
      exact List.mem_toFinset.mpr (hgap id hid j hj.1 hj.2)
    have hle := Finset.card_le_card hsub
    rw [hcard, Int.card_Icc] at hle
    have hone := hpos id hid
    omega
  · intro hid
    by_contra hnot
    -- then all of them are smaller, and there are too many
    have hsub : ids.toFinset ⊆ Finset.Icc 1 (id - 1) := by
      intro j hj
      rw [List.mem_toFinset] at hj
      rw [Finset.mem_Icc]
      refine ⟨hpos j hj, ?_⟩
      by_contra hlt
      exact hnot (hgap j hj id hid.1 (by omega))
    have hle := Finset.card_le_card hsub
    rw [hcard, Int.card_Icc] at hle
    omega

/-- Distinct numbers among which are the first ones leave no gap. -/
theorem no_gap_of_first {ids : List Int} (hnodup : ids.Nodup)
    (hfirst : ∀ i : Int, 1 ≤ i → i ≤ ids.length → i ∈ ids) :
    ∀ i ∈ ids, ∀ j, 1 ≤ j → j ≤ i → j ∈ ids := by
  have hcard : ids.toFinset.card = ids.length := List.toFinset_card_of_nodup hnodup
  have hsub : Finset.Icc 1 (ids.length : Int) ⊆ ids.toFinset := by
    intro i hi
    rw [Finset.mem_Icc] at hi
    exact List.mem_toFinset.mpr (hfirst i hi.1 hi.2)
  have heq : Finset.Icc 1 (ids.length : Int) = ids.toFinset := by
    refine Finset.eq_of_subset_of_card_le hsub ?_
    rw [hcard, Int.card_Icc]
    omega
  intro i hi j hj hji
  have hmem := List.mem_toFinset.mpr hi
  rw [← heq, Finset.mem_Icc] at hmem
  exact hfirst j hj (by omega)

theorem intOfLong_natCast {n : Nat} (h : n < 2 ^ 31) : intOfLong n = n := by
  have hmod : ((n : Int) % 2 ^ 32).toNat = n := by omega
  rw [intOfLong, hmod, toInt_of_lt h]

/-- The neighbours of a page are pages. -/
theorem exists_prevId {n k : Nat} (hn : 1 ≤ n) (hle : n ≤ k) (hk : k < 2 ^ 31) :
    ∃ m : Nat, prevId n = m ∧ 1 ≤ m ∧ m ≤ k := by
  by_cases hone : n = 1
  · exact ⟨1, by simp [prevId, hone], le_refl 1, by omega⟩
  · have hcast : (n : Int) - 1 = (n - 1 : Nat) := by omega
    have hnot : ¬ (n : Int) = 1 := by omega
    exact ⟨n - 1, by rw [prevId, if_neg hnot, hcast, intOfLong_natCast (by omega)], by omega,
      by omega⟩

theorem exists_nextId {n k : Nat} (hn : 1 ≤ n) (hle : n ≤ k) (hk : k < 2 ^ 31) :
    ∃ m : Nat, nextId n k = m ∧ 1 ≤ m ∧ m ≤ k := by
  by_cases hlast : n = k
  · exact ⟨n, by simp [nextId, hlast], hn, hle⟩
  · have hcast : (n : Int) + 1 = (n + 1 : Nat) := by omega
    have hnot : ¬ (n : Int) = k := by omega
    exact ⟨n + 1, by rw [nextId, if_neg hnot, hcast, intOfLong_natCast (by omega)], by omega,
      by omega⟩

/-! ## Answers -/

section

variable {cacheSize : Nat} {listfile key : Bytes} {listing : Listing}

/-- A request at the start of the server. -/
theorem Answered.first {path : Bytes} {good : Bytes → Prop}
    (h : Answered cacheSize listfile key listing path good) :
    ∃ changes g', myHandler (fun _ => ⟨true, some listing⟩) { gvm := startVm cacheSize listfile }
      ⟨.HTTP_GET, path, [], false⟩ = some (HTTP_200, changes, g') ∧ good (bodyOf changes) :=
  h _ (.init rfl) ⟨fun _ => ⟨true, some listing⟩, ⟨.HTTP_GET, path, [], false⟩⟩ rfl rfl

/-- Where the body is known, it is a good one. -/
theorem Answered.of_body {path body : Bytes} {good : Bytes → Prop}
    (h : Answered cacheSize listfile key listing path good)
    (hbody : Answered cacheSize listfile key listing path fun b => b = body) : good body := by
  obtain ⟨changes, g, hcall, hgood⟩ := h.first
  obtain ⟨changes', g', hcall', heq⟩ := hbody.first
  rw [hcall, Option.some.injEq, Prod.mk.injEq, Prod.mk.injEq] at hcall'
  rw [← hcall'.2.1] at heq
  exact heq ▸ hgood

theorem Answered.mono {path : Bytes} {good good' : Bytes → Prop}
    (h : Answered cacheSize listfile key listing path good)
    (hgood : ∀ body, good body → good' body) :
    Answered cacheSize listfile key listing path good' := by
  intro g hg r hdisk hr
  obtain ⟨changes, g', hcall, hbody⟩ := h g hg r hdisk hr
  exact ⟨changes, g', hcall, hgood _ hbody⟩

theorem answered_of_reply {path : Bytes} {t : Target} {good : Bytes → Prop}
    (hpath : target path = some t)
    (h : ∀ g, (browseServer cacheSize listfile).RunsUnder (Decodes key listing) g →
      ∀ disk : Bytes → LoadOutcome, disk key = ⟨true, some listing⟩ →
        ∃ contentType body gvm, answerTo disk g t = some (reply contentType body g gvm) ∧
          good body) :
    Answered cacheSize listfile key listing path good := by
  intro g hg r hdisk hr
  obtain ⟨contentType, body, gvm, hreply, hgood⟩ := h g hg r.disk hdisk
  refine ⟨(reply contentType body g gvm).2.1, (reply contentType body g gvm).2.2, ?_, hgood⟩
  rw [myHandler_of_target (hr ▸ hpath), hreply]
  rfl

/-- A page of a video without a key cannot be asked for. -/
theorem key_ne_nil {path : Bytes} (h : target path = some (.browseall key)) : key ≠ [] := by
  have hne : ∀ piece ∈ splitPath path, piece ≠ [] := by
    intro piece hpiece
    rw [splitPath_eq, List.mem_filter, decide_eq_true_eq] at hpiece
    exact hpiece.2
  unfold target at h
  split at h
  · next kind key' rest hsplit =>
      have hkey := hne key' (by rw [hsplit]; simp)
      by_cases hbrowse : kind = ascii "browse"
      · simp [hbrowse] at h
      · by_cases hall : kind = ascii "browseall"
        · rw [if_neg hbrowse, if_pos hall] at h
          cases h
          exact hkey
        · rw [if_neg hbrowse, if_neg hall] at h
          split at h
          · cases hrest : rest.head? <;> simp [hrest] at h
          · cases h
  · cases h

section

variable {frames : StdMap Int Bytes} {size : Nat} (hread : readFiles listing = some (frames, size))
  (hknown : (startVm cacheSize listfile).rawPath.find? key ≠ none)
  (hfits : videoSize listing ≤ cacheSize)

include hread hknown hfits

/-- `LookupSize` returns the number of frames. -/
theorem lookupSize_run (hids : (frameIds listing).Nodup) {g : Serving}
    (hg : (browseServer cacheSize listfile).RunsUnder (Decodes key listing) g) :
    ∃ vm', g.gvm.lookupSize key ⟨true, some listing⟩
      = some (((frameIds listing).length : Int), vm') := by
  obtain ⟨vm', hcall⟩ := (holds_of_run hread hg).lookupSize_eq hread hknown hfits
  have hlen : frames.entries.length = (frameIds listing).length := by
    rw [← keys_readFiles hids hread, List.length_map]
  refine ⟨vm', ?_⟩
  rw [hcall, hlen, toInt_of_lt (length_frameIds_lt listing)]

theorem answered_browse (hids : (frameIds listing).Nodup) {path : Bytes} {id : Int}
    (hpath : target path = some (.browse key id)) :
    Answered cacheSize listfile key listing path
      fun body => body = browseBody key id (frameIds listing).length := by
  refine answered_of_reply hpath fun g hg disk hdisk => ?_
  obtain ⟨vm', hcall⟩ := lookupSize_run hread hknown hfits hids hg
  have hnot : ¬ ((frameIds listing).length : Int) < 0 := by omega
  refine ⟨ascii "text/html", _, vm', ?_, rfl⟩
  rw [answerTo, hdisk, hcall, Option.map_some, if_neg hnot]

theorem answered_browseall (hids : (frameIds listing).Nodup) {path : Bytes}
    (hpath : target path = some (.browseall key)) :
    Answered cacheSize listfile key listing path
      fun body => body = browseallBody key (frameIds listing).length := by
  refine answered_of_reply hpath fun g hg disk hdisk => ?_
  obtain ⟨vm', hcall⟩ := lookupSize_run hread hknown hfits hids hg
  have hnot : ¬ ((frameIds listing).length : Int) < 0 := by omega
  refine ⟨ascii "text/html", _, vm', ?_, rfl⟩
  rw [answerTo, hdisk, hcall, Option.map_some, if_neg hnot]

/-- `Lookup` finds the numbers of the frames. -/
theorem lookup_run (hids : (frameIds listing).Nodup) {g : Serving}
    (hg : (browseServer cacheSize listfile).RunsUnder (Decodes key listing) g) (id : Int) :
    ∃ r content vm', g.gvm.lookup key id [] ⟨true, some listing⟩ = some (r, content, vm') ∧
      (if id ∈ frameIds listing then r = 0 else r = -1) := by
  obtain ⟨vm', hcall⟩ := (holds_of_run hread hg).lookup_eq hread hknown hfits id []
  refine ⟨_, _, vm', hcall, ?_⟩
  rw [← keys_readFiles hids hread]
  cases hfind : frames.find? id with
  | none =>
      rw [if_neg (frames.find?_eq_none_iff.mp hfind)]
      simp [frameAnswer, hfind]
  | some content =>
      rw [if_pos (List.mem_map.mpr ⟨(id, content), frames.find?_eq_some_iff.mp hfind, rfl⟩)]
      simp [frameAnswer, hfind]

theorem mem_of_stored (hids : (frameIds listing).Nodup) {id : Int}
    (hstored : Stored cacheSize listfile key listing id) : id ∈ frameIds listing := by
  obtain ⟨g, hg, content, vm', hlookup⟩ := hstored
  obtain ⟨r, content', vm₁, hlookup', hr⟩ := lookup_run hread hknown hfits hids hg id
  rw [hlookup, Option.some.injEq, Prod.mk.injEq] at hlookup'
  by_contra hnot
  rw [if_neg hnot, ← hlookup'.1] at hr
  cases hr

theorem answered_image_iff (hids : (frameIds listing).Nodup) {path : Bytes} {id : Int}
    (hpath : target path = some (.image key id)) :
    (Answered cacheSize listfile key listing path fun _ => True) ↔ id ∈ frameIds listing := by
  constructor
  · intro h
    obtain ⟨changes, g', hcall, -⟩ := h.first
    obtain ⟨r, content, vm', hlookup, hr⟩ := lookup_run hread hknown hfits hids
      (g := { gvm := startVm cacheSize listfile }) (.init rfl) id
    by_contra hnot
    rw [if_neg hnot] at hr
    rw [myHandler_of_target hpath, answerTo, hlookup, hr] at hcall
    cases hcall
  · intro hid
    refine answered_of_reply hpath fun g hg disk hdisk => ?_
    obtain ⟨r, content, vm', hlookup, hr⟩ := lookup_run hread hknown hfits hids hg id
    rw [if_pos hid] at hr
    refine ⟨ascii "image/jpeg", content, vm', ?_, trivial⟩
    rw [answerTo, hdisk, hlookup, Option.map_some, hr, if_neg (lt_irrefl 0)]

/-- The images of the frames are good links. -/
theorem linkOk_imageSrc (hids : (frameIds listing).Nodup) (hne : key ≠ []) {n : Nat} (hn : 1 ≤ n)
    (hle : n ≤ (frameIds listing).length) (hmem : (n : Int) ∈ frameIds listing) :
    LinkOk cacheSize listfile key listing (frameIds listing).length (imageSrc key n) := by
  have hk := length_frameIds_lt listing
  have htarget := target_imageSrc (n := n) (key_of_known hknown).1 hne (by omega)
  exact ⟨⟨n, by omega, by omega, .inl htarget⟩,
    (answered_image_iff hread hknown hfits hids htarget).mpr hmem⟩

/-- So are the addresses of the pages. -/
theorem linkOk_browseAddr (hids : (frameIds listing).Nodup) (hne : key ≠ [])
    (hlen : key.length ≤ 23) {n : Nat} (hn : 1 ≤ n) (hle : n ≤ (frameIds listing).length) :
    LinkOk cacheSize listfile key listing (frameIds listing).length (browseAddr key n) := by
  have hk := length_frameIds_lt listing
  obtain ⟨hslash, hzero⟩ := key_of_known hknown
  obtain ⟨id, hid, hidle, htarget⟩ := target_browseAddr hslash hzero hne hlen hn (by omega)
  exact ⟨⟨id, hid, by omega, .inr htarget⟩,
    (answered_browse hread hknown hfits hids htarget).mono fun _ _ => trivial⟩

/-- The pages of a video whose frames are the first files. -/
theorem linksClosed_of_first (hids : (frameIds listing).Nodup)
    (hfirst : ∀ id, id ∈ frameIds listing ↔ 1 ≤ id ∧ id ≤ (frameIds listing).length)
    (hne : key ≠ []) (hlen : key.length ≤ 23) (hquote : 34 ∉ key) :
    LinksClosed cacheSize listfile key listing (frameIds listing).length := by
  have hslash := (key_of_known hknown).1
  have hk := length_frameIds_lt listing
  have himage : ∀ n : Nat, 1 ≤ n → n ≤ (frameIds listing).length →
      LinkOk cacheSize listfile key listing (frameIds listing).length (imageSrc key n) := by
    intro n hn hle
    exact linkOk_imageSrc hread hknown hfits hids hne hn hle ((hfirst n).mpr ⟨by omega, by omega⟩)
  refine ⟨fun g hg => lookupSize_run hread hknown hfits hids hg, fun id hid hidle => ?_, ?_, ?_⟩
  · obtain ⟨n, rfl⟩ : ∃ n : Nat, id = n := ⟨id.toNat, by omega⟩
    refine ⟨⟨browsePath key n, target_browsePath hslash hne (by omega)⟩, fun path hpath => ?_⟩
    refine (answered_browse hread hknown hfits hids hpath).mono fun body hbody link hlink => ?_
    have hn : 1 ≤ n := by omega
    have hle : n ≤ (frameIds listing).length := by omega
    obtain ⟨prev, hprev, hprevpos, hprevle⟩ := exists_prevId hn hle hk
    obtain ⟨next, hnext, hnextpos, hnextle⟩ := exists_nextId hn hle hk
    rw [hbody, links_browseBody hquote hprev hnext] at hlink
    simp only [List.mem_cons, List.not_mem_nil, or_false] at hlink
    rcases hlink with rfl | rfl | rfl
    · exact himage n hn hle
    · exact linkOk_browseAddr hread hknown hfits hids hne hlen hprevpos hprevle
    · exact linkOk_browseAddr hread hknown hfits hids hne hlen hnextpos hnextle
  · exact ⟨browseallPath key, target_browseallPath hslash hne⟩
  · intro path hpath
    refine (answered_browseall hread hknown hfits hids hpath).mono fun body hbody => ?_
    subst hbody
    constructor
    · intro link hlink
      rw [links_browseallBody hquote] at hlink
      obtain ⟨i, hi, rfl⟩ := List.mem_map.mp hlink
      rw [List.mem_range] at hi
      exact himage (i + 1) (by omega) (by omega)
    · intro id hstored
      obtain ⟨hid, hle⟩ := (hfirst id).mp (mem_of_stored hread hknown hfits hids hstored)
      exact countP_browseall hslash hne hquote hk hid hle

/-- The page of a video without frames. -/
theorem linksClosed_of_none (hempty : frameIds listing = []) (hne : key ≠ [])
    (hlinks : links key = []) : LinksClosed cacheSize listfile key listing 0 := by
  obtain ⟨hslash, -⟩ := key_of_known hknown
  have hids : (frameIds listing).Nodup := by simp [hempty]
  have hcount : ((frameIds listing).length : Int) = 0 := by simp [hempty]
  refine ⟨fun g hg => ?_, fun id hid hidle => ?_, ?_, ?_⟩
  · rw [← hcount]
    exact lookupSize_run hread hknown hfits hids hg
  · omega
  · exact ⟨browseallPath key, target_browseallPath hslash hne⟩
  · intro path hpath
    refine (answered_browseall hread hknown hfits hids hpath).mono fun body hbody => ?_
    rw [hbody, hcount, links_browseallBody_zero, hlinks]
    refine ⟨by simp, fun id hstored => ?_⟩
    have hid := mem_of_stored hread hknown hfits hids hstored
    rw [hempty] at hid
    cases hid

/-- Conversely, what the pages need. -/
theorem LinksClosed.frmCnt_eq (hids : (frameIds listing).Nodup) {frmCnt : Int}
    (h : LinksClosed cacheSize listfile key listing frmCnt) :
    frmCnt = (frameIds listing).length := by
  obtain ⟨vm₁, hcall₁⟩ := h.counts { gvm := startVm cacheSize listfile } (.init rfl)
  obtain ⟨vm₂, hcall₂⟩ := lookupSize_run hread hknown hfits hids
    (g := { gvm := startVm cacheSize listfile }) (.init rfl)
  rw [hcall₁, Option.some.injEq, Prod.mk.injEq] at hcall₂
  exact hcall₂.1

/-- The links of the browseall page. -/
theorem LinksClosed.browseall_links (hids : (frameIds listing).Nodup) {frmCnt : Int}
    (h : LinksClosed cacheSize listfile key listing frmCnt) :
    ∀ link ∈ links (browseallBody key (frameIds listing).length),
      LinkOk cacheSize listfile key listing (frameIds listing).length link := by
  obtain ⟨⟨path, hpath⟩, hall⟩ := h.browseall
  have hfrmCnt := h.frmCnt_eq hread hknown hfits hids
  have hlinks := (hall path hpath).of_body (answered_browseall hread hknown hfits hids hpath)
  rw [hfrmCnt] at hlinks
  exact hlinks.1

theorem LinksClosed.browse_links (hids : (frameIds listing).Nodup) {frmCnt : Int}
    (h : LinksClosed cacheSize listfile key listing frmCnt) {id : Int} (hid : 1 ≤ id)
    (hle : id ≤ frmCnt) : ∀ link ∈ links (browseBody key id (frameIds listing).length),
      LinkOk cacheSize listfile key listing (frameIds listing).length link := by
  obtain ⟨⟨path, hpath⟩, hall⟩ := h.browse id hid hle
  have hfrmCnt := h.frmCnt_eq hread hknown hfits hids
  have hlinks := (hall path hpath).of_body (answered_browse hread hknown hfits hids hpath)
  rw [hfrmCnt] at hlinks
  exact hlinks

/-- Without frames the text of the key has no link. -/
theorem LinksClosed.no_links (hempty : frameIds listing = []) {frmCnt : Int}
    (h : LinksClosed cacheSize listfile key listing frmCnt) : links key = [] := by
  have hids : (frameIds listing).Nodup := by simp [hempty]
  have hall := h.browseall_links hread hknown hfits hids
  rw [hempty, List.length_nil, Nat.cast_zero, links_browseallBody_zero] at hall
  refine List.eq_nil_iff_forall_not_mem.mpr fun link hlink => ?_
  obtain ⟨⟨id, hid, hle, -⟩, -⟩ := hall link hlink
  omega

theorem LinksClosed.no_quote (hids : (frameIds listing).Nodup)
    (hpos : 1 ≤ (frameIds listing).length) {frmCnt : Int}
    (h : LinksClosed cacheSize listfile key listing frmCnt) : 34 ∉ key := by
  intro hquote
  obtain ⟨link, hlink, hnone⟩ := exists_link_without_target (key_of_known hknown).1 hquote hpos
  obtain ⟨⟨id, -, -, htarget⟩, -⟩ := h.browseall_links hread hknown hfits hids link hlink
  rw [hnone] at htarget
  rcases htarget with htarget | htarget <;> cases htarget

/-- The images of the browseall page are frames. -/
theorem LinksClosed.first (hids : (frameIds listing).Nodup) (hquote : 34 ∉ key) {frmCnt : Int}
    (h : LinksClosed cacheSize listfile key listing frmCnt) :
    ∀ id : Int, 1 ≤ id → id ≤ (frameIds listing).length → id ∈ frameIds listing := by
  intro id hid hle
  have hk := length_frameIds_lt listing
  obtain ⟨path, hpath⟩ := h.browseall.1
  obtain ⟨n, rfl⟩ : ∃ n : Nat, id = (n + 1 : Nat) := ⟨(id - 1).toNat, by omega⟩
  have hlink : imageSrc key (n + 1 : Nat)
      ∈ links (browseallBody key (frameIds listing).length) := by
    rw [links_browseallBody hquote]
    exact List.mem_map.mpr ⟨n, List.mem_range.mpr (by omega), rfl⟩
  have htarget := target_imageSrc (n := n + 1) (key_of_known hknown).1 (key_ne_nil hpath) (by omega)
  exact (answered_image_iff hread hknown hfits hids htarget).mp
    (h.browseall_links hread hknown hfits hids _ hlink).2

/-- The address of the next page leads to the key, so it is not cut. -/
theorem LinksClosed.length_le (hids : (frameIds listing).Nodup)
    (hpos : 1 ≤ (frameIds listing).length) (hquote : 34 ∉ key) {frmCnt : Int}
    (h : LinksClosed cacheSize listfile key listing frmCnt) : key.length ≤ 23 := by
  by_contra hlong
  obtain ⟨hslash, hzero⟩ := key_of_known hknown
  have hk := length_frameIds_lt listing
  have hfrmCnt := h.frmCnt_eq hread hknown hfits hids
  obtain ⟨next, hnext, -, -⟩ :=
    exists_nextId (n := 1) (k := (frameIds listing).length) (le_refl 1) hpos hk
  have hprev : prevId (1 : Nat) = (1 : Nat) := rfl
  have hlink : browseAddr key next
      ∈ links (browseBody key (1 : Nat) (frameIds listing).length) := by
    rw [links_browseBody hquote hprev hnext]
    simp
  have hone : 1 ≤ ((1 : Nat) : Int) := by omega
  obtain ⟨⟨id, -, -, htarget⟩, -⟩ :=
    h.browse_links hread hknown hfits hids hone (by omega) _ hlink
  rw [target_browseAddr_long hslash hzero (by omega)] at htarget
  rcases htarget with htarget | htarget
  · cases htarget
  · rw [Option.some.injEq, Target.browse.injEq] at htarget
    have hcut := congrArg List.length htarget.1
    rw [List.length_take] at hcut
    omega

end

/-- A size below 0 ends the load, and the server with it. -/
theorem LinksClosed.readable {frmCnt : Int} (h : LinksClosed cacheSize listfile key listing frmCnt)
    (hknown : (startVm cacheSize listfile).rawPath.find? key ≠ none) : Readable listing := by
  obtain ⟨vm', hcall⟩ := h.counts { gvm := startVm cacheSize listfile } (.init rfl)
  obtain ⟨path, hpath⟩ := Option.ne_none_iff_exists'.mp hknown
  rw [← readFiles_isSome]
  by_contra hnone
  rw [Option.not_isSome_iff_eq_none] at hnone
  have hmiss : (startVm cacheSize listfile).data.find? key = none := rfl
  have hload : (startVm cacheSize listfile).load key ⟨true, some listing⟩ = none := by
    simp only [VideoManager.load, hpath, if_true, insertVideo, hnone, Option.bind_eq_bind,
      Option.bind_some, Option.bind_none]
  simp only [VideoManager.lookupSize, VideoManager.findOrLoad, hmiss, hload, Option.bind_eq_bind,
    Option.bind_none] at hcall
  cases hcall

end

/-- The pages of a video are closed under their links exactly if the video
has a key, no jpg file has a size that is negative as an `int`, and either
there are no frames and the text of the key has no link, or the frames are
the first files, without a gap, and the key has at most 23 bytes and no
quote. -/
theorem pages_closed_iff (cacheSize : Nat) (listfile key : Bytes) (listing : Listing)
    (hknown : (startVm cacheSize listfile).rawPath.find? key ≠ none) (hnumbered : Numbered listing)
    (hfits : videoSize listing ≤ cacheSize) :
    (∃ frmCnt, LinksClosed cacheSize listfile key listing frmCnt) ↔
      key ≠ [] ∧ Readable listing ∧
        if frameIds listing = [] then links key = []
        else (∀ i ∈ frameIds listing, ∀ j, 1 ≤ j → j ≤ i → j ∈ frameIds listing) ∧
          key.length ≤ 23 ∧ 34 ∉ key := by
  have hids := hnumbered.nodup
  constructor
  · intro h
    obtain ⟨frmCnt, h⟩ := h
    have hreadable := h.readable hknown
    obtain ⟨⟨frames, size⟩, hread⟩ :=
      Option.isSome_iff_exists.mp ((readFiles_isSome listing).mpr hreadable)
    obtain ⟨path, hpath⟩ := h.browseall.1
    refine ⟨key_ne_nil hpath, hreadable, ?_⟩
    split
    · next hempty => exact h.no_links hread hknown hfits hempty
    · next hframes =>
        have hpos : 1 ≤ (frameIds listing).length := List.length_pos_iff.mpr hframes
        have hquote := h.no_quote hread hknown hfits hids hpos
        exact ⟨no_gap_of_first hids (h.first hread hknown hfits hids hquote),
          h.length_le hread hknown hfits hids hpos hquote, hquote⟩
  · intro h
    obtain ⟨hne, hreadable, hrest⟩ := h
    obtain ⟨⟨frames, size⟩, hread⟩ :=
      Option.isSome_iff_exists.mp ((readFiles_isSome listing).mpr hreadable)
    split at hrest
    · next hempty => exact ⟨_, linksClosed_of_none hread hknown hfits hempty hne hrest⟩
    · next hframes =>
        obtain ⟨hgap, hlen, hquote⟩ := hrest
        have hfirst := mem_iff_of_no_gap hids hnumbered.pos hgap
        exact ⟨_, linksClosed_of_first hread hknown hfits hids hfirst hne hlen hquote⟩

/-- A video of two files. -/
def listingOfTwo (first : Bytes) : Listing :=
  ⟨[⟨ascii "1.jpg", some first⟩, ⟨ascii "2.jpg", some [7]⟩], by simp⟩

theorem pages_of_two_closed :
    ∃ frmCnt, LinksClosed 2 (ascii "v.pickle") (ascii "v") (listingOfTwo [7]) frmCnt := by
  have hknown : (startVm 2 (ascii "v.pickle")).rawPath.find? (ascii "v") ≠ none := by
    decide +kernel
  have hnumbered : Numbered (listingOfTwo [7]) := ⟨2, by decide +kernel⟩
  have hfits : videoSize (listingOfTwo [7]) ≤ 2 := by decide +kernel
  have hids : frameIds (listingOfTwo [7]) = [1, 2] := by decide +kernel
  have hreadable : Readable (listingOfTwo [7]) := (readFiles_isSome _).mp (by decide +kernel)
  refine (pages_closed_iff 2 (ascii "v.pickle") (ascii "v") (listingOfTwo [7]) hknown hnumbered
    hfits).mpr ⟨by decide, hreadable, ?_⟩
  rw [hids, if_neg (by decide)]
  refine ⟨fun i hi j hj hji => ?_, by decide, by decide⟩
  simp only [List.mem_cons, List.not_mem_nil, or_false] at hi ⊢
  omega

/-- If the first file is empty, the browseall page links the frame 1, which
is not there. -/
theorem pages_after_empty_file_not_closed :
    (startVm 2 (ascii "v.pickle")).rawPath.find? (ascii "v") ≠ none ∧
      Numbered (listingOfTwo []) ∧ videoSize (listingOfTwo []) ≤ 2 ∧
      ¬ ∃ frmCnt, LinksClosed 2 (ascii "v.pickle") (ascii "v") (listingOfTwo []) frmCnt := by
  have hknown : (startVm 2 (ascii "v.pickle")).rawPath.find? (ascii "v") ≠ none := by
    decide +kernel
  have hnumbered : Numbered (listingOfTwo []) := ⟨2, by decide +kernel⟩
  have hfits : videoSize (listingOfTwo []) ≤ 2 := by decide +kernel
  refine ⟨hknown, hnumbered, hfits, fun h => ?_⟩
  obtain ⟨frmCnt, h⟩ := h
  obtain ⟨⟨frames, size⟩, hread⟩ :=
    Option.isSome_iff_exists.mp ((readFiles_isSome _).mpr (h.readable hknown))
  have hfirst := h.first hread hknown hfits hnumbered.nodup (by decide) 1 (le_refl 1)
    (by decide +kernel)
  have hnot : 1 ∉ frameIds (listingOfTwo []) := by decide +kernel
  exact hnot hfirst

end VideoMatch.Browse
