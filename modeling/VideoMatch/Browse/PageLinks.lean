/-
VideoMatch.Browse.PageLinks — the links that the pages have.

A browse page has three links, a browseall page one for each number up to
the number of frames. This is so when the key has no quote. With a quote
the text falls apart elsewhere, and then a browseall page has a link that
leads nowhere (`exists_link_without_target`).
-/
import VideoMatch.Browse.Links

namespace VideoMatch.Browse

open VideoMatch.Cxx

/-! ## The links of the pages -/

section

variable {key : Bytes}

theorem quote_not_mem_snprintf_decimal (n : Nat) : 34 ∉ snprintf 32 (decimal n) :=
  fun hmem => quote_not_mem_decimal n (mem_of_mem_snprintf hmem)

theorem quote_not_mem_imageSrc (hquote : 34 ∉ key) (n : Nat) : 34 ∉ imageSrc key n := by
  have hdigits := quote_not_mem_snprintf_decimal n
  have hkind : 34 ∉ ascii "/image/" := by decide
  have hslash : 34 ∉ ascii "/" := by decide
  simp [imageSrc, hquote, hdigits, hkind, hslash]

theorem quote_not_mem_browseAddr (hquote : 34 ∉ key) (n : Nat) : 34 ∉ browseAddr key n := by
  intro hmem
  have hdigits := quote_not_mem_decimal n
  have hkind : 34 ∉ ascii "/browse/" := by decide
  have hslash : 34 ∉ ascii "/" := by decide
  have hkey : 34 ∉ cString key := fun h => hquote ((List.takeWhile_prefix _).subset h)
  have hwhole := mem_of_mem_snprintf hmem
  simp [hkey, hdigits, hkind, hslash] at hwhole

/-- The titles are words and numbers. -/
theorem quote_not_mem_total (n : Nat) :
    34 ∉ snprintf 32 (ascii "Total " ++ decimal n ++ ascii " frames") := by
  intro hmem
  have hlit₁ : 34 ∉ ascii "Total " := by decide
  have hlit₂ : 34 ∉ ascii " frames" := by decide
  have hwhole := mem_of_mem_snprintf hmem
  simp [quote_not_mem_decimal, hlit₁, hlit₂] at hwhole

theorem quote_not_mem_position (n k : Nat) :
    34 ∉ snprintf 32 (decimal n ++ ascii " / " ++ decimal k) := by
  intro hmem
  have hlit : 34 ∉ ascii " / " := by decide
  have hwhole := mem_of_mem_snprintf hmem
  simp [quote_not_mem_decimal, hlit] at hwhole

/-- The head of a browse page, up to the first quote. -/
def browseHead (key : Bytes) (curid frmCnt : Nat) : Bytes :=
  ascii "<html><head><title>" ++ key ++ ascii "</title></head><body><center><h2>"
    ++ snprintf 32 (decimal curid ++ ascii " / " ++ decimal frmCnt)
    ++ ascii "</h2></center><center><img src="

/-- A browse page, with its links taken out of the text. -/
theorem browseBody_eq {curid frmCnt prev next : Nat} (hprev : prevId curid = prev)
    (hnext : nextId curid frmCnt = next) : browseBody key curid frmCnt
      = browseHead key curid frmCnt ++ 34 :: (imageSrc key curid
        ++ 34 :: ((ascii " usemap=\"#img1\"align=\"middle\" width=600></center><map name=\"img1\">"
          ++ ascii "<area shape=\"rect\" coords=\"0,0,300,600") ++ 34 :: (ascii " href="
        ++ 34 :: (browseAddr key prev
        ++ 34 :: (ascii " alt=\"Sun\"><area shape=\"rect\" coords=\"300,0,600,600"
        ++ 34 :: (ascii " href=" ++ 34 :: (browseAddr key next
        ++ 34 :: ascii " alt=\"Sun\"></map></body></html>"))))))) := by
  have hsrc : ascii "</h2></center><center><img src=\"/image/"
      = ascii "</h2></center><center><img src=" ++ 34 :: ascii "/image/" := by decide
  have hhref : ascii "<area shape=\"rect\" coords=\"0,0,300,600\" href=\""
      = ascii "<area shape=\"rect\" coords=\"0,0,300,600" ++ 34 :: (ascii " href=" ++ [34]) := by
    decide
  have hmap : ascii "\" usemap=\"#img1\"align=\"middle\" width=600></center><map name=\"img1\">"
      = 34 :: ascii " usemap=\"#img1\"align=\"middle\" width=600></center><map name=\"img1\">" := by
    decide
  have halt : ascii "\" alt=\"Sun\"><area shape=\"rect\" coords=\"300,0,600,600\" href=\""
      = 34 :: (ascii " alt=\"Sun\"><area shape=\"rect\" coords=\"300,0,600,600"
        ++ 34 :: (ascii " href=" ++ [34])) := by
    decide
  have hend : ascii "\" alt=\"Sun\"></map></body></html>"
      = 34 :: ascii " alt=\"Sun\"></map></body></html>" := by decide
  rw [browseBody, hsrc, hmap, hhref, halt, hend, hprev, hnext, browseHead]
  simp [imageSrc]

theorem quote_not_mem_browseHead (hquote : 34 ∉ key) (curid frmCnt : Nat) :
    34 ∉ browseHead key curid frmCnt := by
  have htitle := quote_not_mem_position curid frmCnt
  have hlit₁ : 34 ∉ ascii "<html><head><title>" := by decide
  have hlit₂ : 34 ∉ ascii "</title></head><body><center><h2>" := by decide
  have hlit₃ : 34 ∉ ascii "</h2></center><center><img src=" := by decide
  simp only [browseHead, List.mem_append, not_or]
  exact ⟨⟨⟨⟨hlit₁, hquote⟩, hlit₂⟩, by simpa using htitle⟩, hlit₃⟩

theorem opens_browseHead (key : Bytes) (curid frmCnt : Nat) :
    opens (browseHead key curid frmCnt) = true := by
  have hcons : ascii "</h2></center><center><img src="
      = 60 :: ascii "/h2></center><center><img src=" := by decide
  rw [browseHead, hcons, opens_append _ (by decide)]
  decide

/-- A browse page has three links. -/
theorem links_browseBody (hquote : 34 ∉ key) {curid frmCnt prev next : Nat}
    (hprev : prevId curid = prev) (hnext : nextId curid frmCnt = next) :
    links (browseBody key curid frmCnt)
      = [imageSrc key curid, browseAddr key prev, browseAddr key next] := by
  have himagequote := quote_not_mem_imageSrc hquote curid
  have hprevquote := quote_not_mem_browseAddr hquote prev
  have hnextquote := quote_not_mem_browseAddr hquote next
  have hlast : links (ascii " alt=\"Sun\"></map></body></html>") = [] := by decide
  rw [browseBody_eq hprev hnext,
    links_value (quote_not_mem_browseHead hquote curid frmCnt) (opens_browseHead key curid frmCnt)
      himagequote,
    links_text (by decide), links_value (by decide) (by decide) hprevquote,
    links_text (by decide), links_value (by decide) (by decide) hnextquote, hlast]

/-- An item of a browseall page has one link, and what follows the link
opens none. -/
theorem links_frameItem (hquote : 34 ∉ key) (i : Nat) {front : Bytes} (hfront : 34 ∉ front)
    (rest : Bytes) : links (front ++ frameItem key i ++ rest)
      = imageSrc key i
        :: links (ascii " width=600></center>\n<hr noshade size=4 width=600>" ++ rest) := by
  have hopen : ascii "<center><img src=\"/image/"
      = ascii "<center><img src=" ++ 34 :: ascii "/image/" := by decide
  have hclose : ascii "\"align=\"middle\" width=600></center>\n"
      = 34 :: (ascii "align=\"middle" ++ 34 :: ascii " width=600></center>\n") := by decide
  have hrule : ascii " width=600></center>\n<hr noshade size=4 width=600>"
      = ascii " width=600></center>\n" ++ ascii "<hr noshade size=4 width=600>" := by decide
  have hitem : front ++ frameItem key i ++ rest
      = (front ++ ascii "<center><img src=") ++ 34 :: (imageSrc key i
        ++ 34 :: (ascii "align=\"middle"
        ++ 34 :: (ascii " width=600></center>\n<hr noshade size=4 width=600>" ++ rest))) := by
    rw [frameItem, hopen, hclose, hrule]
    simp [imageSrc]
  have hopens : opens (front ++ ascii "<center><img src=") = true := by
    have hcons : ascii "<center><img src=" = 60 :: ascii "center><img src=" := by decide
    rw [hcons, opens_append front (by decide)]
    decide
  have hplain : 34 ∉ front ++ ascii "<center><img src=" := by
    have hlit : 34 ∉ ascii "<center><img src=" := by decide
    simp [hfront, hlit]
  rw [hitem, links_value hplain hopens (quote_not_mem_imageSrc hquote i),
    links_text (by decide)]

/-- A browseall page links the frames in order. -/
theorem links_browseallBody (hquote : 34 ∉ key) (frmCnt : Nat) :
    links (browseallBody key frmCnt)
      = (List.range frmCnt).map fun i => imageSrc key (i + 1 : Nat) := by
  have hitems : ∀ (is : List Nat) {front : Bytes}, 34 ∉ front →
      links (front ++ (is.flatMap fun i => frameItem key (i + 1 : Nat)) ++ ascii "</body></html>")
        = is.map fun i => imageSrc key (i + 1 : Nat) := by
    intro is
    induction is with
    | nil =>
        intro front hfront
        have hlit : 34 ∉ ascii "</body></html>" := by decide
        simp [links_plain, hfront, hlit]
    | cons i is ih =>
        intro front hfront
        have hplain : 34 ∉ ascii " width=600></center>\n<hr noshade size=4 width=600>" := by
          decide
        have hnext := ih hplain
        rw [List.append_assoc] at hnext
        rw [List.flatMap_cons, ← List.append_assoc, List.append_assoc (front ++ _),
          links_frameItem hquote (i + 1) hfront, hnext, List.map_cons]
  have htitle := quote_not_mem_total frmCnt
  have hlit₁ : 34 ∉ ascii "<html><head><title>" := by decide
  have hlit₂ : 34 ∉ ascii "</title></head>\n<body><center><h2>" := by decide
  have hlit₃ : 34 ∉ ascii "</h2></center>\n" := by decide
  rw [browseallBody, Int.toNat_natCast]
  refine hitems _ ?_
  simp only [List.mem_append, not_or]
  exact ⟨⟨⟨⟨hlit₁, hquote⟩, hlit₂⟩, by simpa using htitle⟩, hlit₃⟩

/-- Each number up to the number of frames has one image. -/
theorem countP_browseall (hslash : 47 ∉ key) (hne : key ≠ []) (hquote : 34 ∉ key) {k : Nat}
    (hk : k < 2 ^ 31) {id : Int} (hid : 1 ≤ id) (hle : id ≤ k) :
    (links (browseallBody key k)).countP (fun link => target link = some (.image key id)) = 1 := by
  obtain ⟨m, rfl⟩ : ∃ m : Nat, id = (m + 1 : Nat) := ⟨(id - 1).toNat, by omega⟩
  have hcount : (List.range k).count m = 1 :=
    List.count_eq_one_of_mem List.nodup_range (List.mem_range.mpr (by omega))
  have htargets : ∀ i ∈ List.range k,
      (target (imageSrc key (i + 1 : Nat)) = some (.image key (m + 1 : Nat)) ↔ i = m) := by
    intro i hi
    rw [List.mem_range] at hi
    rw [target_imageSrc hslash hne (by omega), Option.some.injEq, Target.image.injEq,
      and_iff_right rfl]
    omega
  rw [links_browseallBody hquote, List.countP_map]
  refine Eq.trans (List.countP_congr fun i hi => ?_) hcount
  simpa using htargets i hi

end

/-! ## Keys with quotes -/

/-- A page without frames has the links that the text of its key has. -/
theorem links_browseallBody_zero (key : Bytes) : links (browseallBody key 0) = links key := by
  have hbody : browseallBody key 0 = ascii "<html><head><title" ++ 62 :: (key
      ++ (ascii "</title></head>\n<body><center><h2>Total 0 frames</h2></center>\n"
        ++ ascii "</body></html>")) := by
    have hhead : ascii "<html><head><title>" = ascii "<html><head><title" ++ [62] := by
      decide
    have htitle : ascii "</title></head>\n<body><center><h2>Total 0 frames</h2></center>\n"
        = ascii "</title></head>\n<body><center><h2>"
          ++ (snprintf 32 (ascii "Total " ++ decimal 0 ++ ascii " frames")
            ++ ascii "</h2></center>\n") := by decide
    rw [browseallBody, hhead, htitle]
    simp
  rw [hbody, links_prepend (by decide) (by decide) (by decide),
    links_append (by decide)]

/-- What stands on a browseall page between the key in the title and the
quote of the first image. -/
def betweenKeys (frmCnt : Nat) : Bytes :=
  60 :: 47 :: (ascii "title></head>\n<body><center><h2>"
    ++ snprintf 32 (ascii "Total " ++ decimal frmCnt ++ ascii " frames")
    ++ ascii "</h2></center>\n<center><img src=")

theorem quote_not_mem_betweenKeys (n : Nat) : 34 ∉ betweenKeys n := by
  have htitle := quote_not_mem_total n
  have hlit₁ : 34 ∉ ascii "title></head>\n<body><center><h2>" := by decide
  have hlit₂ : 34 ∉ ascii "</h2></center>\n<center><img src=" := by decide
  simp only [betweenKeys, List.mem_cons, List.mem_append, not_or]
  exact ⟨by decide, by decide, ⟨hlit₁, by simpa using htitle⟩, hlit₂⟩

theorem opens_betweenKeys (front : Bytes) (n : Nat) : opens (front ++ betweenKeys n) = true := by
  have hcons : ascii "</h2></center>\n<center><img src="
      = 60 :: ascii "/h2></center>\n<center><img src=" := by decide
  rw [betweenKeys, ← List.cons_append, ← List.cons_append, ← List.append_assoc, hcons,
    opens_append _ (by decide)]
  decide

/-- A browseall page, cut at any quote of the key in the title and at any
one in the first image. -/
theorem browseallBody_cut {key front last first rest : Bytes} (htitle : key = front ++ 34 :: last)
    (himage : key = first ++ 34 :: rest) {n : Nat} (hn : 1 ≤ n) :
    ∃ more, browseallBody key n = (ascii "<html><head><title>" ++ front)
      ++ 34 :: ((last ++ betweenKeys n) ++ 34 :: ((ascii "/image/" ++ first) ++ 34 :: more)) := by
  obtain ⟨tail, hitem⟩ : ∃ tail, frameItem key (1 : Nat) = ascii "<center><img src="
      ++ 34 :: ((ascii "/image/" ++ first) ++ 34 :: tail) := by
    have hopen : ascii "<center><img src=\"/image/"
        = ascii "<center><img src=" ++ 34 :: ascii "/image/" := by decide
    rw [frameItem, hopen, himage]
    exact ⟨rest ++ (ascii "/" ++ (snprintf 32 (decimal (1 : Nat))
      ++ (ascii "\"align=\"middle\" width=600></center>\n"
        ++ ascii "<hr noshade size=4 width=600>"))), by simp⟩
  obtain ⟨items, hitems⟩ : ∃ items,
      ((List.range n).flatMap fun i => frameItem key (i + 1 : Nat))
        = frameItem key (1 : Nat) ++ items := by
    obtain ⟨m, rfl⟩ : ∃ m, n = m + 1 := ⟨n - 1, by omega⟩
    rw [List.range_succ_eq_map, List.flatMap_cons]
    exact ⟨_, rfl⟩
  have hclose : ascii "</title></head>\n<body><center><h2>"
      = 60 :: 47 :: ascii "title></head>\n<body><center><h2>" := by decide
  have hsrc : ascii "</h2></center>\n<center><img src="
      = ascii "</h2></center>\n" ++ ascii "<center><img src=" := by decide
  rw [browseallBody, Int.toNat_natCast, hitems, hitem, hclose, htitle, betweenKeys, hsrc]
  exact ⟨tail ++ (items ++ ascii "</body></html>"), by simp⟩

/-- With a quote in the key, a browseall page has a link that leads
nowhere. -/
theorem exists_link_without_target {key : Bytes} (hkey : 47 ∉ key) (hquote : 34 ∈ key) {n : Nat}
    (hn : 1 ≤ n) : ∃ link ∈ links (browseallBody key n), target link = none := by
  -- the last quote of the key in the title, and the first one in the image
  obtain ⟨front, last, htitle, hlast⟩ := exists_last hquote
  obtain ⟨first, rest, himage, hfirst⟩ := List.eq_append_cons_of_mem hquote
  have hfrontslash : 47 ∉ front := fun h => hkey (htitle ▸ List.mem_append_left _ h)
  have hlastslash : 47 ∉ last :=
    fun h => hkey (htitle ▸ List.mem_append_right _ (List.mem_cons_of_mem _ h))
  have hfirstslash : 47 ∉ first := fun h => hkey (himage ▸ List.mem_append_left _ h)
  have hbetween : 34 ∉ last ++ betweenKeys n := by
    simp [hlast, quote_not_mem_betweenKeys n]
  have hfirstquote : 34 ∉ ascii "/image/" ++ first := by
    have hlit : 34 ∉ ascii "/image/" := by decide
    simp [hfirst, hlit]
  have hnone : target (last ++ betweenKeys n) = none := by
    rw [betweenKeys]
    exact target_of_tag hlastslash _
  obtain ⟨more, hbody⟩ := browseallBody_cut htitle himage hn
  rw [hbody, links, List.splitOn_append_cons_self,
    List.splitOn_append_cons_self_of_not_mem hbetween,
    List.splitOn_append_cons_self_of_not_mem hfirstquote]
  have hpieces : ∀ piece ∈ (ascii "<html><head><title>" ++ front).splitOn 34,
      target piece = none := by
    intro piece hpiece
    apply target_eq_none
    intro hmem
    have hwhole := mem_of_mem_splitOn hpiece hmem
    have hlit : 47 ∉ ascii "<html><head><title>" := by decide
    simp [hfrontslash, hlit] at hwhole
  exact exists_bad_link (opens_betweenKeys last n) hnone (target_image_cut hfirstslash)
    (List.splitOn_ne_nil _ _) _ hpieces

end VideoMatch.Browse
