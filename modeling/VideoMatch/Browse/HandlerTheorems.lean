/-
VideoMatch.Browse.HandlerTheorems — what the handler answers in a run.

The frames of a video are the jpg files that can be opened and are not
empty (`keys_readFiles`). Over a run in which the disk always answers the
same for a key, a cached item of the key holds the frames of that listing
(`Holds`), so the handler answers the requests for the key from these
frames in every state (`Holds.lookupSize_eq`, `Holds.lookup_eq`).
-/
import VideoMatch.Browse.Links
import VideoMatch.Browse.RecencyTheorems

namespace VideoMatch.Browse

open VideoMatch.Cxx VideoMatch.Machine VideoMatch.Machine.Recency HttpConnection VideoManager

/-! ## The list file -/

/-- The name starts behind the last slash. -/
theorem slash_not_mem_scanLine (line : Bytes) : 47 ∉ line.drop (scanLine line).1 := by
  induction line using List.reverseRecOn with
  | nil => simp
  | append_singleton line c ih =>
      have hstep : (scanLine (line ++ [c])).1
          = if c = 47 then line.length + 1 else (scanLine line).1 := by
        rw [scanLine, List.zipIdx_append, List.foldl_append]
        by_cases hslash : c = 47
        · simp [hslash]
        · by_cases hdot : c = 46 <;> simp [hslash, hdot, scanLine]
      rw [hstep]
      by_cases hslash : c = 47
      · simp [hslash]
      · rw [if_neg hslash]
        intro hmem
        rw [List.drop_append, List.mem_append] at hmem
        rcases hmem with hmem | hmem
        · exact ih hmem
        · have hlast := List.mem_of_mem_drop hmem
          rw [List.mem_singleton] at hlast
          exact hslash hlast.symm

/-- The keys of the known videos have neither slash nor NUL. -/
theorem key_of_known {cacheSize : Nat} {listfile key : Bytes}
    (h : (startVm cacheSize listfile).rawPath.find? key ≠ none) : 47 ∉ key ∧ 0 ∉ key := by
  have hadd : ∀ {rawPath : StdMap Bytes Bytes} (fn : Bytes),
      (∀ key, rawPath.find? key ≠ none → 47 ∉ key ∧ 0 ∉ key) →
      ∀ key, (addPath rawPath fn).find? key ≠ none → 47 ∉ key ∧ 0 ∉ key := by
    intro rawPath fn hraw key hkey
    unfold addPath at hkey
    dsimp only at hkey
    split at hkey
    · exact hraw key hkey
    · next d _ =>
        split at hkey
        · rw [UnorderedMap.find?_assign] at hkey
          split at hkey
          · next heq =>
              subst heq
              constructor
              · intro hmem
                exact slash_not_mem_scanLine _ (List.mem_of_mem_take hmem)
              · intro hmem
                have hline := List.mem_of_mem_drop (List.mem_of_mem_take hmem)
                simpa using List.mem_takeWhile_imp hline
          · exact hraw key hkey
        · exact hraw key hkey
  have hfold : ∀ (lines : List Bytes) {rawPath : StdMap Bytes Bytes},
      (∀ key, rawPath.find? key ≠ none → 47 ∉ key ∧ 0 ∉ key) →
      ∀ key, (lines.foldl addPath rawPath).find? key ≠ none → 47 ∉ key ∧ 0 ∉ key := by
    intro lines
    induction lines with
    | nil => intro rawPath hraw; exact hraw
    | cons fn lines ih => intro rawPath hraw; exact ih (hadd fn hraw)
  exact hfold _ (fun key hnone => absurd rfl hnone) key h

/-! ## The frames of a listing -/

/-- A file that becomes a frame. -/
def isFrame (e : DirEntry) : Bool :=
  isJpg e.dName && e.file.any fun content => toInt content.length ≠ 0

/-- The numbers of the files that become frames. -/
def frameIds (listing : Listing) : List Int :=
  (listing.1.filter isFrame).map fun e => atoi e.dName

/-- The jpg files are numbered from 1 on by their names. -/
def Numbered (listing : Listing) : Prop :=
  ∃ n : Nat, ((listing.1.filter fun e => isJpg e.dName).map fun e => atoi e.dName).Perm
    ((List.range n).map fun i : Nat => (i : Int) + 1)

/-- The size of no jpg file is negative as an `int`. -/
def Readable (listing : Listing) : Prop :=
  ∀ e ∈ listing.1, isJpg e.dName = true → ∀ content, e.file = some content →
    0 ≤ toInt content.length

theorem frameIds_sublist (listing : Listing) : (frameIds listing).Sublist
    ((listing.1.filter fun e => isJpg e.dName).map fun e => atoi e.dName) := by
  refine List.Sublist.map _ ?_
  have hfilter : listing.1.filter isFrame
      = (listing.1.filter fun e => isJpg e.dName).filter isFrame := by
    rw [List.filter_filter]
    refine List.filter_congr fun e _ => ?_
    cases hjpg : isJpg e.dName <;> simp [isFrame, hjpg]
  rw [hfilter]
  exact List.filter_sublist

theorem length_frameIds_lt (listing : Listing) : (frameIds listing).length < 2 ^ 31 := by
  rw [frameIds, List.length_map]
  exact lt_of_le_of_lt (List.length_filter_le _ _) listing.2

theorem Numbered.nodup {listing : Listing} (h : Numbered listing) : (frameIds listing).Nodup := by
  obtain ⟨n, hperm⟩ := h
  have hinj : Function.Injective fun i : Nat => (i : Int) + 1 := by
    intro i j hij
    simpa using hij
  exact (frameIds_sublist listing).nodup (hperm.nodup_iff.mpr (List.nodup_range.map hinj))

theorem Numbered.pos {listing : Listing} (h : Numbered listing) :
    ∀ id ∈ frameIds listing, 1 ≤ id := by
  intro id hid
  obtain ⟨n, hperm⟩ := h
  have hmem := hperm.subset ((frameIds_sublist listing).subset hid)
  obtain ⟨i, -, rfl⟩ := List.mem_map.mp hmem
  omega

/-- One file: an exception of `new`, a frame, or nothing. -/
theorem readFile_eq (st : StdMap Int Bytes × Nat) (e : DirEntry) : readFile st e
    = if isJpg e.dName = true ∧ ∃ content, e.file = some content ∧ toInt content.length < 0
      then none
      else some (if isFrame e
        then (st.1.assign (atoi e.dName)
            ((e.file.getD []).take (toInt (e.file.getD []).length).toNat),
          st.2 + (toInt (e.file.getD []).length).toNat)
        else st) := by
  unfold readFile isFrame
  cases isJpg e.dName with
  | false => simp
  | true =>
      cases e.file with
      | none => simp
      | some content =>
          by_cases hneg : toInt content.length < 0
          · simp [hneg]
          · by_cases hzero : toInt content.length = 0 <;> simp [hneg, hzero]

/-- A listing can be read if no size is negative. -/
theorem readFiles_isSome (listing : Listing) : (readFiles listing).isSome ↔ Readable listing := by
  have hfold : ∀ (es : List DirEntry) (st : StdMap Int Bytes × Nat),
      (es.foldlM readFile st).isSome ↔ ∀ e ∈ es, isJpg e.dName = true →
        ∀ content, e.file = some content → 0 ≤ toInt content.length := by
    intro es
    induction es with
    | nil => intro st; simp
    | cons e es ih =>
        intro st
        rw [List.foldlM_cons, readFile_eq]
        split
        · next hbad =>
            obtain ⟨hjpg, content, hfile, hneg⟩ := hbad
            simp only [Option.bind_eq_bind, Option.bind_none, Option.isSome_none,
              Bool.false_eq_true, false_iff]
            intro hall
            have hle := hall e (by simp) hjpg content hfile
            omega
        · next hok =>
            rw [Option.bind_eq_bind, Option.bind_some, ih, List.forall_mem_cons, iff_and_self]
            intro _ hjpg content hfile
            by_contra hneg
            exact hok ⟨hjpg, content, hfile, by omega⟩
  exact hfold listing.1 (UnorderedMap.empty, 0)

/-- The frames are entered under the numbers of the files. -/
theorem keys_readFiles {listing : Listing} (hids : (frameIds listing).Nodup)
    {frames : StdMap Int Bytes} {size : Nat} (hread : readFiles listing = some (frames, size)) :
    frames.entries.map Prod.fst = frameIds listing := by
  have hfold : ∀ (es : List DirEntry) {st st' : StdMap Int Bytes × Nat},
      (st.1.entries.map Prod.fst ++ (es.filter isFrame).map fun e => atoi e.dName).Nodup →
      es.foldlM readFile st = some st' → st'.1.entries.map Prod.fst
        = st.1.entries.map Prod.fst ++ (es.filter isFrame).map fun e => atoi e.dName := by
    intro es
    induction es with
    | nil => intro st st' _ h; cases h; simp
    | cons e es ih =>
        intro st st' hnodup h
        rw [List.foldlM_cons, Option.bind_eq_bind, Option.bind_eq_some_iff] at h
        obtain ⟨t, ht, h⟩ := h
        rw [readFile_eq] at ht
        split at ht
        · cases ht
        · cases hframe : isFrame e with
          | false =>
              rw [hframe] at ht
              simp only [List.filter_cons, hframe] at hnodup ⊢
              cases ht
              exact ih hnodup h
          | true =>
              simp only [hframe, if_true, Option.some.injEq] at ht
              simp only [List.filter_cons, hframe, if_true, List.map_cons] at hnodup ⊢
              have hnew : st.1.find? (atoi e.dName) = none := by
                rw [UnorderedMap.find?_eq_none_iff]
                intro hmem
                exact (List.disjoint_of_nodup_append hnodup) hmem (by simp)
              have hkeys : t.1.entries.map Prod.fst
                  = st.1.entries.map Prod.fst ++ [atoi e.dName] := by
                rw [← ht, UnorderedMap.entries_assign_of_none _ _ hnew]
                simp
              have hrest := ih (by rw [hkeys]; simpa using hnodup) h
              rw [hrest, hkeys]
              simp
  simpa [frameIds] using hfold listing.1 (by simpa [frameIds] using hids) hread

/-! ## The cache in a run -/

/-- Each item of `key` in the cache is the video that was read. -/
structure Holds (cacheSize : Nat) (rawPath : StdMap Bytes Bytes) (key : Bytes)
    (video : StdMap Int Bytes × Nat) (vm : VideoManager) : Prop where
  cacheSize : vm.cacheSize = cacheSize
  rawPath : vm.rawPath = rawPath
  items : ∃ l, Represents vm l ∧ ∀ it ∈ l, it.2.name = key → (it.2.frames, it.2.size) = video

section

variable {cacheSize : Nat} {rawPath : StdMap Bytes Bytes} {key : Bytes}
  {video : StdMap Int Bytes × Nat} {listing : Listing} {vm vm' : VideoManager} {vname : Bytes}
  {out : LoadOutcome}

theorem Holds.load (h : Holds cacheSize rawPath key video vm)
    (hread : readFiles listing = some video) (hout : vname = key → out.scandir = some listing)
    (hmiss : vm.data.find? vname = none) {r : Int} (hload : vm.load vname out = some (r, vm')) :
    Holds cacheSize rawPath key video vm' := by
  by_cases hfails : vm.rawPath.find? vname = none ∨ out.mkdir = false
  · rw [load_failed hfails] at hload
    cases hload
    exact h
  · rw [not_or, Bool.not_eq_false] at hfails
    obtain ⟨path, hpath⟩ := Option.ne_none_iff_exists'.mp hfails.1
    obtain ⟨scanned, hscan, frames, size, hfiles⟩ : ∃ scanned, out.scandir = some scanned ∧
        ∃ frames size, readFiles scanned = some (frames, size) := by
      simp only [VideoManager.load, hpath, hfails.2, if_true, insertVideo, Option.bind_eq_bind,
        Option.bind_eq_some_iff] at hload
      obtain ⟨vm₁, ⟨scanned, hscan, ⟨frames, size⟩, hfiles, -⟩, -⟩ := hload
      exact ⟨scanned, hscan, frames, size, hfiles⟩
    obtain ⟨l, hrep, hitems⟩ := h.items
    obtain ⟨vm₂, p, hload₂, hrep₂, hsize, hraw⟩ :=
      load_spec hrep hmiss hfails.1 hfails.2 hscan hfiles
    rw [hload] at hload₂
    cases hload₂
    refine ⟨hsize.trans h.cacheSize, hraw.trans h.rawPath, _, hrep₂, ?_⟩
    intro it hit hname
    rcases List.mem_cons.mp ((keep_isPrefix _ _).subset hit) with rfl | hit
    · have hsame := hout hname
      rw [hscan, Option.some.injEq] at hsame
      rw [hsame, hread, Option.some.injEq] at hfiles
      exact hfiles.symm
    · exact hitems it hit hname

theorem Holds.findOrLoad (h : Holds cacheSize rawPath key video vm)
    (hread : readFiles listing = some video) (hout : vname = key → out.scandir = some listing)
    {found : Option Nat} (hfound : vm.findOrLoad vname out = some (found, vm')) :
    Holds cacheSize rawPath key video vm' ∧
      ∀ p, found = some p → vm'.data.find? vname = some p := by
  cases hfind : vm.data.find? vname with
  | some p =>
      rw [findOrLoad_of_hit hfind] at hfound
      cases hfound
      exact ⟨h, fun _ heq => heq ▸ hfind⟩
  | none =>
      simp only [VideoManager.findOrLoad, hfind, Option.bind_eq_bind,
        Option.bind_eq_some_iff] at hfound
      obtain ⟨⟨r, vm₁⟩, hload, hfound⟩ := hfound
      have hloaded := h.load hread hout hfind hload
      split at hfound
      · cases hfound
        exact ⟨hloaded, fun _ heq => by cases heq⟩
      · obtain ⟨p, hp, hfound⟩ := Option.bind_eq_some_iff.mp hfound
        cases hfound
        exact ⟨hloaded, fun _ heq => by cases heq; exact hp⟩

theorem Holds.lookupSize (h : Holds cacheSize rawPath key video vm)
    (hread : readFiles listing = some video) (hout : vname = key → out.scandir = some listing)
    {r : Int} (hcall : vm.lookupSize vname out = some (r, vm')) :
    Holds cacheSize rawPath key video vm' := by
  simp only [VideoManager.lookupSize, Option.bind_eq_bind, Option.bind_eq_some_iff] at hcall
  obtain ⟨⟨found, vm₁⟩, hfound, hcall⟩ := hcall
  have hloaded := (h.findOrLoad hread hout hfound).1
  cases found with
  | none => cases hcall; exact hloaded
  | some p =>
      obtain ⟨item, -, hcall⟩ := Option.bind_eq_some_iff.mp hcall
      cases hcall
      exact hloaded

/-- Moving an item to the front keeps the items. -/
theorem Holds.front (h : Holds cacheSize rawPath key video vm) {p : Nat}
    (hfind : vm.data.find? vname = some p) (hmove : vm.moveToFront p = some vm') :
    Holds cacheSize rawPath key video vm' := by
  obtain ⟨l, hrep, hitems⟩ := h.items
  obtain ⟨xs, c, ys, rfl, -⟩ := hrep.split hfind
  obtain ⟨vm₁, hmove₁, hrep₁, hsize, hraw⟩ := moveToFront_spec hrep
  rw [hmove] at hmove₁
  cases hmove₁
  exact ⟨hsize.trans h.cacheSize, hraw.trans h.rawPath, _, hrep₁,
    fun it hit => hitems it (List.perm_middle.symm.mem_iff.mp hit)⟩

theorem Holds.lookup (h : Holds cacheSize rawPath key video vm)
    (hread : readFiles listing = some video) (hout : vname = key → out.scandir = some listing)
    {frameid r : Int} {content content' : Bytes}
    (hcall : vm.lookup vname frameid content out = some (r, content', vm')) :
    Holds cacheSize rawPath key video vm' := by
  simp only [VideoManager.lookup, Option.bind_eq_bind, Option.bind_eq_some_iff] at hcall
  obtain ⟨⟨found, vm₁⟩, hfound, hcall⟩ := hcall
  obtain ⟨hloaded, hfind⟩ := h.findOrLoad hread hout hfound
  cases found with
  | none => cases hcall; exact hloaded
  | some p =>
      simp only [Option.bind_eq_some_iff] at hcall
      obtain ⟨vm₂, hmove, item, -, hcall⟩ := hcall
      have hend : vm₂ = vm' := by
        split at hcall <;> cases hcall <;> rfl
      exact hend ▸ hloaded.front (hfind p rfl) hmove

/-- In such a cache a known key that fits is found, or loaded and found. -/
theorem Holds.found (h : Holds cacheSize rawPath key video vm)
    (hread : readFiles listing = some video) (hknown : rawPath.find? key ≠ none)
    (hfits : videoSize listing ≤ cacheSize) :
    ∃ p c xs ys vm', vm.findOrLoad key ⟨true, some listing⟩ = some (some p, vm') ∧
      Represents vm' (xs ++ (p, c) :: ys) ∧ c.frames = video.1 := by
  obtain ⟨frames, size⟩ := video
  obtain ⟨l, hrep, hitems⟩ := h.items
  cases hfind : vm.data.find? key with
  | some p =>
      obtain ⟨xs, c, ys, rfl, hname⟩ := hrep.split hfind
      have hvideo := hitems (p, c) (by simp) hname
      exact ⟨p, c, xs, ys, vm, findOrLoad_of_hit hfind, hrep, congrArg Prod.fst hvideo⟩
  | none =>
      have hscan : (⟨true, some listing⟩ : LoadOutcome).scandir = some listing := rfl
      obtain ⟨vm', p, hload, hrep', -⟩ :=
        load_spec hrep hfind (h.rawPath ▸ hknown) rfl hscan hread
      have hhead : VideoManager.sizeOf (p, (⟨key, frames, size⟩ : Entry)) ≤ vm.cacheSize := by
        rw [h.cacheSize]
        rwa [← readFiles_size hread] at hfits
      rw [keep, if_pos hhead] at hrep'
      have hfind' : vm'.data.find? key = some p :=
        hrep'.find_eq_some.mpr ⟨⟨key, frames, size⟩, by simp, rfl⟩
      refine ⟨p, ⟨key, frames, size⟩, [], _, vm', ?_, hrep', rfl⟩
      rw [findOrLoad_of_load hfind hload, hfind']
      rfl

theorem Holds.lookupSize_eq (h : Holds cacheSize rawPath key video vm)
    (hread : readFiles listing = some video) (hknown : rawPath.find? key ≠ none)
    (hfits : videoSize listing ≤ cacheSize) :
    ∃ vm', vm.lookupSize key ⟨true, some listing⟩
      = some (toInt video.1.entries.length, vm') := by
  obtain ⟨p, c, xs, ys, vm', hfound, hrep, hframes⟩ := h.found hread hknown hfits
  have hmem : (p, c) ∈ xs ++ (p, c) :: ys := by simp
  exact ⟨vm', by rw [lookupSize_of_found hfound hrep hmem, hframes]⟩

theorem Holds.lookup_eq (h : Holds cacheSize rawPath key video vm)
    (hread : readFiles listing = some video) (hknown : rawPath.find? key ≠ none)
    (hfits : videoSize listing ≤ cacheSize) (frameid : Int) (content : Bytes) :
    ∃ vm', vm.lookup key frameid content ⟨true, some listing⟩
      = some ((frameAnswer video.1 frameid content).1, (frameAnswer video.1 frameid content).2,
        vm') := by
  obtain ⟨p, c, xs, ys, vm₁, hfound, hrep, hframes⟩ := h.found hread hknown hfits
  obtain ⟨vm', hlookup, -⟩ := lookup_of_found hfound hrep frameid content
  exact ⟨vm', by rw [hlookup, hframes]⟩

end

/-! ## The handler -/

/-- What the handler does with a target. -/
def answerTo (disk : Bytes → LoadOutcome) (g : Serving) :
    Target → Option (Int × List Change × Serving)
  | .browse key curid => (g.gvm.lookupSize key (disk key)).map fun r =>
      if r.1 < 0 then (HTTP_404, [], { g with gvm := r.2 })
      else reply (ascii "text/html") (browseBody key curid r.1) g r.2
  | .browseall key => (g.gvm.lookupSize key (disk key)).map fun r =>
      if r.1 < 0 then (HTTP_404, [], { g with gvm := r.2 })
      else reply (ascii "text/html") (browseallBody key r.1) g r.2
  | .image key frameid => (g.gvm.lookup key frameid [] (disk key)).map fun r =>
      if r.1 < 0 then (HTTP_404, [], { g with gvm := r.2.2 })
      else reply (ascii "image/jpeg") r.2.1 g r.2.2

/-- A request is answered by its target; without one, with a 404 or a
fault. -/
theorem myHandler_eq (disk : Bytes → LoadOutcome) (g : Serving) (conn : View) :
    (∃ t, target conn.path = some t ∧ myHandler disk g conn = answerTo disk g t) ∨
    (target conn.path = none ∧
      (myHandler disk g conn = none ∨ myHandler disk g conn = some (HTTP_404, [], g))) := by
  unfold myHandler target
  cases splitPath conn.path with
  | nil => exact .inr ⟨rfl, .inr rfl⟩
  | cons kind rest =>
      cases rest with
      | nil => exact .inr ⟨rfl, .inr rfl⟩
      | cons key rest =>
          by_cases hbrowse : kind = ascii "browse"
          · exact .inl ⟨.browse key ((rest.head?.map atoi).getD 1), by simp only [if_pos hbrowse],
              by simp only [if_pos hbrowse, answerTo]⟩
          · by_cases hall : kind = ascii "browseall"
            · exact .inl ⟨.browseall key, by simp only [if_neg hbrowse, if_pos hall],
                by simp only [if_neg hbrowse, if_pos hall, answerTo]⟩
            · by_cases himage : kind = ascii "image"
              · cases rest with
                | nil =>
                    refine .inr ⟨?_, .inl ?_⟩ <;>
                      simp only [if_neg hbrowse, if_neg hall, if_pos himage, List.head?_nil,
                        Option.map_none, Option.bind_none]
                | cons id rest =>
                    refine .inl ⟨.image key (atoi id), ?_, ?_⟩ <;>
                      simp only [if_neg hbrowse, if_neg hall, if_pos himage, List.head?_cons,
                        Option.map_some, Option.bind_some, answerTo]
              · refine .inr ⟨?_, .inr ?_⟩ <;>
                  simp only [if_neg hbrowse, if_neg hall, if_neg himage]

theorem myHandler_of_target {disk : Bytes → LoadOutcome} {g : Serving} {conn : View} {t : Target}
    (h : target conn.path = some t) : myHandler disk g conn = answerTo disk g t := by
  rcases myHandler_eq disk g conn with ⟨t', ht', heq⟩ | ⟨hnone, -⟩
  · rw [h, Option.some.injEq] at ht'
    exact ht' ▸ heq
  · rw [h] at hnone
    cases hnone

/-- The runs in which the disk answers each load of `key` with `listing`. -/
def Decodes (key : Bytes) (listing : Listing) (_ : Serving) (r : BrowseRequest) : Prop :=
  r.disk key = ⟨true, some listing⟩

/-- In such a run the cache holds the video of the listing. -/
theorem holds_of_run {cacheSize : Nat} {listfile key : Bytes} {listing : Listing}
    {video : StdMap Int Bytes × Nat} (hread : readFiles listing = some video) {g : Serving}
    (h : (browseServer cacheSize listfile).RunsUnder (Decodes key listing) g) :
    Holds cacheSize (startVm cacheSize listfile).rawPath key video g.gvm := by
  refine h.invariant (P := fun g => Holds cacheSize (startVm cacheSize listfile).rawPath key video
    g.gvm) (fun g hg => ?_) fun g r g' hg hdisk hstep => ?_
  · have hnew : g = { gvm := startVm cacheSize listfile } := hg
    rw [hnew]
    exact ⟨rfl, rfl, [], represents_new _ _, by simp⟩
  · obtain ⟨⟨ret, changes, g₁⟩, hcall, rfl⟩ := Option.map_eq_some_iff.mp hstep
    have hout : ∀ vname, vname = key → (r.disk vname).scandir = some listing := by
      intro vname heq
      rw [heq, hdisk]
    rcases myHandler_eq r.disk g r.conn with ⟨t, -, heq⟩ | ⟨-, heq | heq⟩
    · rw [heq] at hcall
      cases t with
      | browse vname curid =>
          obtain ⟨⟨n, vm⟩, hlookup, hreply⟩ := Option.map_eq_some_iff.mp hcall
          have hkept := hg.lookupSize hread (hout vname) hlookup
          split at hreply <;> cases hreply <;> exact hkept
      | browseall vname =>
          obtain ⟨⟨n, vm⟩, hlookup, hreply⟩ := Option.map_eq_some_iff.mp hcall
          have hkept := hg.lookupSize hread (hout vname) hlookup
          split at hreply <;> cases hreply <;> exact hkept
      | image vname frameid =>
          obtain ⟨⟨n, content, vm⟩, hlookup, hreply⟩ := Option.map_eq_some_iff.mp hcall
          have hkept := hg.lookup hread (hout vname) hlookup
          split at hreply <;> cases hreply <;> exact hkept
    · rw [heq] at hcall
      cases hcall
    · rw [heq] at hcall
      cases hcall
      exact hg

end VideoMatch.Browse
