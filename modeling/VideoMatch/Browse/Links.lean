/-
VideoMatch.Browse.Links — the links of a page, and where they lead.

`links` reads the links off the text of a page, from left to right. It
works on the pieces of the text between the quotes: a piece is a link if
the piece in front of it ends in `src=` or `href=` and a quote follows.

`target` is what the handler makes of a path. The links that a page is
built from lead where they should (`target_imageSrc`,
`target_browseAddr`), except that an address of more than 31 bytes is cut.
-/
import VideoMatch.Browse.Pages

namespace VideoMatch.Browse

open VideoMatch.Cxx

/-! ## Links in a text -/

/-- The text in front of a quoted link. -/
def opens (text : Bytes) : Bool :=
  (ascii "src=").isSuffixOf text || (ascii "href=").isSuffixOf text

/-- The links among the pieces between the quotes. -/
def linksOf : List Bytes → List Bytes
  | text :: value :: after :: rest =>
      if opens text then value :: linksOf (after :: rest) else linksOf (value :: after :: rest)
  | _ => []

/-- The values of the quoted `src` and `href` attributes. -/
def links (body : Bytes) : List Bytes := linksOf (body.splitOn 34)

theorem linksOf_of_opens {text value : Bytes} {rest : List Bytes} (hopens : opens text = true)
    (hrest : rest ≠ []) : linksOf (text :: value :: rest) = value :: linksOf rest := by
  cases rest with
  | nil => exact absurd rfl hrest
  | cons after rest => rw [linksOf, if_pos hopens]

theorem linksOf_of_not_opens {text : Bytes} {rest : List Bytes} (hopens : opens text = false) :
    linksOf (text :: rest) = linksOf rest := by
  cases rest with
  | nil => rfl
  | cons value rest =>
      cases rest with
      | nil => rfl
      | cons after rest => rw [linksOf, hopens, if_neg (by simp)]

/-- What stands in front of a byte that occurs in neither name does not
matter. -/
theorem opens_append (front : Bytes) {b : UInt8} (hb : b ∉ ascii "src=" ++ ascii "href=")
    (text : Bytes) : opens (front ++ b :: text) = opens (b :: text) := by
  have hsuffix : ∀ pat : Bytes, b ∉ pat →
      (pat.isSuffixOf (front ++ b :: text) = true ↔ pat.isSuffixOf (b :: text) = true) := by
    intro pat hpat
    rw [List.isSuffixOf_iff_suffix, List.isSuffixOf_iff_suffix]
    constructor
    · intro h
      rcases List.suffix_or_suffix_of_suffix h (List.suffix_append front (b :: text)) with h | h
      · exact h
      · exact absurd (h.subset (by simp)) hpat
    · intro h
      exact h.trans (List.suffix_append front (b :: text))
  rw [List.mem_append, not_or] at hb
  rw [Bool.eq_iff_iff, opens, opens, Bool.or_eq_true, Bool.or_eq_true, hsuffix _ hb.1,
    hsuffix _ hb.2]

theorem opens_cons {b : UInt8} (hb : b ∉ ascii "src=" ++ ascii "href=") (text : Bytes) :
    opens (b :: text) = opens text := by
  have hsuffix : ∀ pat : Bytes, b ∉ pat →
      (pat.isSuffixOf (b :: text) = true ↔ pat.isSuffixOf text = true) := by
    intro pat hpat
    rw [List.isSuffixOf_iff_suffix, List.isSuffixOf_iff_suffix, List.suffix_cons_iff]
    constructor
    · intro h
      rcases h with rfl | h
      · exact absurd (List.mem_cons_self ..) hpat
      · exact h
    · exact Or.inr
  rw [List.mem_append, not_or] at hb
  rw [Bool.eq_iff_iff, opens, opens, Bool.or_eq_true, Bool.or_eq_true, hsuffix _ hb.1,
    hsuffix _ hb.2]

section

variable {text value : Bytes}

theorem links_plain (htext : 34 ∉ text) : links text = [] := by
  rw [links, List.splitOn_eq_singleton htext]
  rfl

theorem links_value (htext : 34 ∉ text) (hopens : opens text = true) (hvalue : 34 ∉ value)
    (rest : Bytes) : links (text ++ 34 :: (value ++ 34 :: rest)) = value :: links rest := by
  rw [links, List.splitOn_append_cons_self_of_not_mem htext,
    List.splitOn_append_cons_self_of_not_mem hvalue,
    linksOf_of_opens hopens (List.splitOn_ne_nil _ _), links]

/-- A text none of whose pieces opens a link. -/
theorem links_text (hopens : ∀ piece ∈ text.splitOn 34, opens piece = false) (rest : Bytes) :
    links (text ++ 34 :: rest) = links rest := by
  have hskip : ∀ pieces : List Bytes, (∀ piece ∈ pieces, opens piece = false) →
      linksOf (pieces ++ rest.splitOn 34) = linksOf (rest.splitOn 34) := by
    intro pieces
    induction pieces with
    | nil => intro _; rfl
    | cons piece pieces ih =>
        intro h
        rw [List.cons_append, linksOf_of_not_opens (h piece (by simp)),
          ih fun p hp => h p (List.mem_cons_of_mem _ hp)]
  rw [links, List.splitOn_append_cons_self, hskip _ hopens, links]

end

/-- The last quote of a text. -/
theorem exists_last {s : Bytes} {a : UInt8} (h : a ∈ s) :
    ∃ front back, s = front ++ a :: back ∧ a ∉ back := by
  obtain ⟨back, front, hsplit, hback⟩ := List.eq_append_cons_of_mem (List.mem_reverse.mpr h)
  refine ⟨front.reverse, back.reverse, ?_, by simpa using hback⟩
  rw [← List.reverse_reverse s, hsplit]
  simp

/-- The last piece is no link and opens none. -/
theorem linksOf_concat : ∀ (n : Nat) {pieces : List Bytes}, pieces.length ≤ n →
    ∀ x y, linksOf (pieces ++ [x]) = linksOf (pieces ++ [y]) := by
  intro n
  induction n with
  | zero =>
      intro pieces hlen x y
      rw [List.length_eq_zero_iff.mp (Nat.le_zero.mp hlen)]
      rfl
  | succ n ih =>
      intro pieces hlen x y
      cases pieces with
      | nil => rfl
      | cons text pieces =>
          rw [List.length_cons] at hlen
          cases hopens : opens text with
          | false =>
              rw [List.cons_append, List.cons_append, linksOf_of_not_opens hopens,
                linksOf_of_not_opens hopens, ih (by omega) x y]
          | true =>
              cases pieces with
              | nil => rfl
              | cons value pieces =>
                  rw [List.length_cons] at hlen
                  simp only [List.cons_append]
                  rw [linksOf_of_opens hopens (by simp), linksOf_of_opens hopens (by simp),
                    ih (by omega) x y]

/-- Text without quotes behind a text adds no link. -/
theorem links_append {s back : Bytes} (hback : 34 ∉ back) : links (s ++ back) = links s := by
  by_cases hs : 34 ∈ s
  · obtain ⟨front, last, rfl, hlast⟩ := exists_last hs
    have hplain : 34 ∉ last ++ back := by simp [hlast, hback]
    rw [List.append_assoc, List.cons_append, links, links, List.splitOn_append_cons_self,
      List.splitOn_append_cons_self, List.splitOn_eq_singleton hlast,
      List.splitOn_eq_singleton hplain]
    exact linksOf_concat _ (Nat.le_refl _) _ _
  · rw [links_plain hs, links_plain (by simp [hs, hback])]

/-- Neither does such text in front, if it ends in a byte of no name. -/
theorem links_prepend {front : Bytes} {b : UInt8} (hb : b ∉ ascii "src=" ++ ascii "href=")
    (hfront : 34 ∉ front) (hquote : b ≠ 34) (s : Bytes) : links (front ++ b :: s) = links s := by
  have hplain : 34 ∉ front ++ [b] := by simp [hfront, Ne.symm hquote]
  by_cases hs : 34 ∈ s
  · obtain ⟨first, rest, rfl, hfirst⟩ := List.eq_append_cons_of_mem hs
    have hwhole : 34 ∉ front ++ b :: first := by simpa [hfirst] using hplain
    have hopens : opens (front ++ b :: first) = opens first := by
      rw [opens_append front hb, opens_cons hb]
    rw [← List.cons_append, ← List.append_assoc, links, links,
      List.splitOn_append_cons_self_of_not_mem hwhole,
      List.splitOn_append_cons_self_of_not_mem hfirst]
    cases hfirstopens : opens first with
    | false =>
        rw [linksOf_of_not_opens (hopens.trans hfirstopens), linksOf_of_not_opens hfirstopens]
    | true =>
        cases hpieces : rest.splitOn 34 with
        | nil => rfl
        | cons value pieces =>
            cases pieces with
            | nil => rfl
            | cons after pieces =>
                rw [linksOf_of_opens (hopens.trans hfirstopens) (by simp),
                  linksOf_of_opens hfirstopens (by simp)]
  · rw [links_plain hs, links_plain (by simpa [hs] using hplain)]

/-- If the first piece that opens a link is followed by a bad one, then
there is a bad link, whichever of the pieces in front of it open links. -/
theorem exists_bad_link {bad : Bytes → Prop} {text value : Bytes} {rest : List Bytes}
    (hopens : opens text = true) (htext : bad text) (hvalue : bad value) (hrest : rest ≠ []) :
    ∀ pieces : List Bytes, (∀ piece ∈ pieces, bad piece) →
      ∃ link ∈ linksOf (pieces ++ text :: value :: rest), bad link := by
  intro pieces
  induction pieces with
  | nil =>
      intro _
      rw [List.nil_append, linksOf_of_opens hopens hrest]
      exact ⟨value, by simp, hvalue⟩
  | cons piece pieces ih =>
      intro hbad
      obtain ⟨link, hlink, hbadlink⟩ := ih fun p hp => hbad p (List.mem_cons_of_mem _ hp)
      cases hpiece : opens piece with
      | false =>
          refine ⟨link, ?_, hbadlink⟩
          rwa [List.cons_append, linksOf_of_not_opens hpiece]
      | true =>
          -- the piece behind it is taken for a link
          cases pieces with
          | nil =>
              refine ⟨text, ?_, htext⟩
              rw [List.cons_append, List.nil_append, linksOf_of_opens hpiece (by simp)]
              exact List.mem_cons_self ..
          | cons next pieces =>
              refine ⟨next, ?_, hbad next (by simp)⟩
              rw [List.cons_append, List.cons_append, linksOf_of_opens hpiece (by simp)]
              exact List.mem_cons_self ..

/-- The pieces of a text are made of its bytes. -/
theorem mem_of_mem_splitOn {s piece : Bytes} {a b : UInt8} (hpiece : piece ∈ s.splitOn a)
    (hb : b ∈ piece) : b ∈ s := by
  have hjoin : ∀ pieces : List Bytes, piece ∈ pieces → b ∈ [a].intercalate pieces := by
    intro pieces
    induction pieces with
    | nil => intro h; cases h
    | cons p pieces ih =>
        intro h
        rcases List.mem_cons.mp h with rfl | h
        · cases pieces with
          | nil => simpa using hb
          | cons q pieces => simp [List.intercalate_cons_cons, hb]
        · rw [List.intercalate_cons_of_ne_nil (List.ne_nil_of_mem h)]
          exact List.mem_append_right _ (ih h)
  have hmem := hjoin _ hpiece
  rwa [List.intercalate_splitOn] at hmem

/-! ## The pieces of a path -/

theorem splitPath_eq (path : Bytes) : splitPath path = (path.splitOn 47).filter (· ≠ []) := by
  have hfold : ∀ (path : Bytes) (st : List Bytes × Bytes), 47 ∉ st.2 →
      (let r := path.foldl (fun st c =>
          if c = 47 then (if st.2 = [] then st.1 else st.1 ++ [st.2], [])
          else (st.1, st.2 ++ [c])) st
        if r.2 = [] then r.1 else r.1 ++ [r.2])
        = st.1 ++ ((st.2 ++ path).splitOn 47).filter (· ≠ []) := by
    intro path
    induction path with
    | nil =>
        intro st hst
        rw [List.append_nil, List.splitOn_eq_singleton hst]
        by_cases hnil : st.2 = [] <;> simp [hnil]
    | cons c path ih =>
        intro st hst
        rw [List.foldl_cons]
        by_cases hc : c = 47
        · subst hc
          rw [List.splitOn_append_cons_self_of_not_mem hst]
          by_cases hnil : st.2 = []
          · simpa [hnil] using ih (st.1, []) (by simp)
          · simpa [hnil] using ih (st.1 ++ [st.2], []) (by simp)
        · simpa [hc] using ih (st.1, st.2 ++ [c]) (by simp [hst, Ne.symm hc])
  exact hfold path ([], []) (by simp)

section

variable {piece : Bytes}

theorem splitPath_slash (path : Bytes) : splitPath (47 :: path) = splitPath path := by
  rw [splitPath_eq, splitPath_eq, List.splitOn_cons_eq_if_modifyHead]
  simp

theorem splitPath_piece (hpiece : 47 ∉ piece) (hne : piece ≠ []) (path : Bytes) :
    splitPath (piece ++ 47 :: path) = piece :: splitPath path := by
  rw [splitPath_eq, splitPath_eq, List.splitOn_append_cons_self_of_not_mem hpiece]
  simp [hne]

theorem splitPath_last (hpiece : 47 ∉ piece) :
    splitPath piece = if piece = [] then [] else [piece] := by
  rw [splitPath_eq, List.splitOn_eq_singleton hpiece]
  by_cases hne : piece = [] <;> simp [hne]

end

/-! ## Targets -/

/-- What the handler takes a path for. -/
inductive Target where
  | browse (key : Bytes) (curid : Int)
  | browseall (key : Bytes)
  | image (key : Bytes) (frameid : Int)
  deriving DecidableEq

/-- The target of a path; there is none where the handler answers 404 at
once or reads a piece that the path does not have. -/
def target (path : Bytes) : Option Target :=
  match splitPath path with
  | kind :: key :: rest =>
      if kind = ascii "browse" then some (.browse key ((rest.head?.map atoi).getD 1))
      else if kind = ascii "browseall" then some (.browseall key)
      else if kind = ascii "image" then rest.head?.map fun id => .image key (atoi id)
      else none
  | _ => none

/-- The path `/kind/key`, with whatever follows. -/
theorem splitPath_kind {kind key : Bytes} (hkind : 47 ∉ kind) (hkindne : kind ≠ [])
    (hkey : 47 ∉ key) (hne : key ≠ []) (tail : Bytes) :
    splitPath (47 :: (kind ++ 47 :: (key ++ 47 :: tail))) = kind :: key :: splitPath tail := by
  rw [splitPath_slash, splitPath_piece hkind hkindne, splitPath_piece hkey hne]

/-- The source of an image. -/
def imageSrc (key : Bytes) (id : Int) : Bytes :=
  ascii "/image/" ++ key ++ ascii "/" ++ snprintf 32 (decimal id)

/-- The address of a browse page, as long as it may be. -/
def browsePath (key : Bytes) (id : Int) : Bytes :=
  ascii "/browse/" ++ key ++ ascii "/" ++ decimal id

def browseallPath (key : Bytes) : Bytes := ascii "/browseall/" ++ key ++ ascii "/"

theorem slash_not_mem_decimal (n : Nat) : 47 ∉ decimal n := by
  intro hmem
  have hdigit := isDigit_of_mem_decimal n 47 hmem
  exact absurd hdigit (by decide)

theorem quote_not_mem_decimal (n : Nat) : 34 ∉ decimal n := by
  intro hmem
  have hdigit := isDigit_of_mem_decimal n 34 hmem
  exact absurd hdigit (by decide)

/-- The digits of an `int` fit the buffer. -/
theorem snprintf_decimal {n : Nat} (hn : n < 2 ^ 31) : snprintf 32 (decimal n) = decimal n := by
  have hlen : (decimal n).length ≤ 31 := decimal_length_le (by decide) (by omega)
  rw [snprintf, List.take_of_length_le (by omega)]

section

variable {key : Bytes} {n : Nat}

theorem target_imageSrc (hkey : 47 ∉ key) (hne : key ≠ []) (hn : n < 2 ^ 31) :
    target (imageSrc key n) = some (.image key n) := by
  have hpath : imageSrc key n = 47 :: (ascii "image" ++ 47 :: (key ++ 47 :: decimal n)) := by
    have hkind : ascii "/image/" = 47 :: (ascii "image" ++ [47]) := by decide
    have hslash : ascii "/" = [47] := by decide
    simp [imageSrc, snprintf_decimal hn, hkind, hslash]
  rw [hpath, target, splitPath_kind (by decide) (by decide) hkey hne,
    splitPath_last (slash_not_mem_decimal n), if_neg (decimal_ne_nil n)]
  simp [atoi_decimal hn, show ascii "image" ≠ ascii "browse" by decide,
    show ascii "image" ≠ ascii "browseall" by decide]

/-- A browse path, whole or cut in the number. -/
theorem target_browse (hkey : 47 ∉ key) (hne : key ≠ []) (j : Nat) :
    target (ascii "/browse/" ++ key ++ ascii "/" ++ (decimal n).take j)
      = some (.browse key (if j = 0 then 1 else atoi ((decimal n).take j))) := by
  have hkind : ascii "/browse/" = 47 :: (ascii "browse" ++ [47]) := by decide
  have hslash : ascii "/" = [47] := by decide
  have hpath : ascii "/browse/" ++ key ++ ascii "/" ++ (decimal n).take j
      = 47 :: (ascii "browse" ++ 47 :: (key ++ 47 :: (decimal n).take j)) := by
    simp [hkind, hslash]
  have hdigits : 47 ∉ (decimal n).take j :=
    fun hmem => slash_not_mem_decimal n (List.mem_of_mem_take hmem)
  have hnil : (decimal n).take j = [] ↔ j = 0 := by simp [decimal_ne_nil n]
  rw [hpath, target, splitPath_kind (by decide) (by decide) hkey hne, splitPath_last hdigits]
  by_cases hj : j = 0
  · simp [hj]
  · simp [hj, hnil]

theorem target_browsePath (hkey : 47 ∉ key) (hne : key ≠ []) (hn : n < 2 ^ 31) :
    target (browsePath key n) = some (.browse key n) := by
  have hwhole := target_browse (n := n) hkey hne ((decimal n).length + 1)
  rw [List.take_of_length_le (by omega), if_neg (by omega), atoi_decimal hn] at hwhole
  exact hwhole

theorem target_browseallPath (hkey : 47 ∉ key) (hne : key ≠ []) :
    target (browseallPath key) = some (.browseall key) := by
  have hpath : browseallPath key = 47 :: (ascii "browseall" ++ 47 :: (key ++ 47 :: [])) := by
    have hkind : ascii "/browseall/" = 47 :: (ascii "browseall" ++ [47]) := by decide
    have hslash : ascii "/" = [47] := by decide
    simp [browseallPath, hkind, hslash]
  rw [hpath, target, splitPath_kind (by decide) (by decide) hkey hne]
  simp [show ascii "browseall" ≠ ascii "browse" by decide]

/-- `/browse/key` without a number is the first page. -/
theorem target_browse_key (hkey : 47 ∉ key) (hne : key ≠ []) :
    target (ascii "/browse/" ++ key) = some (.browse key 1) := by
  have hpath : ascii "/browse/" ++ key = 47 :: (ascii "browse" ++ 47 :: key) := by
    have hkind : ascii "/browse/" = 47 :: (ascii "browse" ++ [47]) := by decide
    simp [hkind]
  rw [hpath, target, splitPath_slash, splitPath_piece (by decide) (by decide),
    splitPath_last hkey, if_neg hne]
  rfl

/-- The address in the buffer: the key if it fits, then the slash and the
digits as far as they fit. -/
theorem browseAddr_eq (hzero : 0 ∉ key) (id : Int) : browseAddr key id
    = if key.length ≤ 22 then
        ascii "/browse/" ++ key ++ ascii "/" ++ (decimal id).take (22 - key.length)
      else ascii "/browse/" ++ key.take 23 := by
  have hkind : (ascii "/browse/").length = 8 := by decide
  have hslash : (ascii "/").length = 1 := by decide
  rw [browseAddr, cString_eq_self hzero, snprintf]
  split
  · rw [List.take_append, List.take_of_length_le (by simp [hkind, hslash]; omega)]
    simp only [List.length_append, hkind, hslash]
    congr 2
    omega
  · rw [List.append_assoc, List.append_assoc, List.take_append, hkind,
      List.take_of_length_le (by omega), List.take_append_of_le_length (by omega)]

/-- The links between the browse pages of a key of at most 23 bytes lead to
browse pages of this key, with a number that is not larger. -/
theorem target_browseAddr (hkey : 47 ∉ key) (hzero : 0 ∉ key) (hne : key ≠ [])
    (hlen : key.length ≤ 23) (hn : 1 ≤ n) (hlt : n < 2 ^ 31) :
    ∃ id, 1 ≤ id ∧ id ≤ (n : Int) ∧ target (browseAddr key n) = some (.browse key id) := by
  rw [browseAddr_eq hzero]
  split
  · rw [target_browse hkey hne]
    by_cases hj : 22 - key.length = 0
    · exact ⟨1, le_refl 1, by omega, by rw [if_pos hj]⟩
    · have hbounds := atoi_take_decimal hn hlt (j := 22 - key.length) (by omega)
      exact ⟨_, hbounds.1, hbounds.2, by rw [if_neg hj]⟩
  · rw [List.take_of_length_le hlen, target_browse_key hkey hne]
    exact ⟨1, le_refl 1, by omega, rfl⟩

/-- A longer key is cut, and the address leads to another one. -/
theorem target_browseAddr_long (hkey : 47 ∉ key) (hzero : 0 ∉ key) (hlen : 24 ≤ key.length)
    (id : Int) : target (browseAddr key id) = some (.browse (key.take 23) 1) := by
  have hslash : 47 ∉ key.take 23 := fun hmem => hkey (List.mem_of_mem_take hmem)
  have hne : key.take 23 ≠ [] := by
    intro hnil
    have hzero : (key.take 23).length = 0 := by rw [hnil]; rfl
    rw [List.length_take] at hzero
    omega
  rw [browseAddr_eq hzero, if_neg (by omega), target_browse_key hslash hne]

end

/-- A text without a slash has no target. -/
theorem target_eq_none {path : Bytes} (hpath : 47 ∉ path) : target path = none := by
  rw [target, splitPath_last hpath]
  by_cases hne : path = [] <;> simp [hne]

/-- Neither has the text in front of a closing tag. -/
theorem target_of_tag {text : Bytes} (htext : 47 ∉ text) (rest : Bytes) :
    target (text ++ 60 :: 47 :: rest) = none := by
  have hpiece : 47 ∉ text ++ [60] := by simp [htext]
  have hkind : ∀ kind : Bytes, 60 ∉ kind → text ++ [60] ≠ kind := by
    intro kind hnot heq
    exact hnot (heq ▸ by simp)
  have hsplit : text ++ 60 :: 47 :: rest = (text ++ [60]) ++ 47 :: rest := by simp
  rw [hsplit, target, splitPath_piece hpiece (by simp)]
  cases splitPath rest with
  | nil => rfl
  | cons key rest =>
      simp [hkind (ascii "browse") (by decide), hkind (ascii "browseall") (by decide),
        hkind (ascii "image") (by decide)]

/-- An image source that ends within the key. -/
theorem target_image_cut {key : Bytes} (hkey : 47 ∉ key) :
    target (ascii "/image/" ++ key) = none := by
  have hpath : ascii "/image/" ++ key = 47 :: (ascii "image" ++ 47 :: key) := by
    have hkind : ascii "/image/" = 47 :: (ascii "image" ++ [47]) := by decide
    simp [hkind]
  rw [hpath, target, splitPath_slash, splitPath_piece (by decide) (by decide), splitPath_last hkey]
  by_cases hne : key = []
  · simp [hne]
  · simp [hne, show ascii "image" ≠ ascii "browse" by decide,
      show ascii "image" ≠ ascii "browseall" by decide]

end VideoMatch.Browse
