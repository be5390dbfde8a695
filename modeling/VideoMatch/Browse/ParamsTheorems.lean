/-
VideoMatch.Browse.ParamsTheorems — the accesses of `my_handler` to the
pieces of a path.

`my_handler` checks once that there are two pieces, and after that each kind
of request reads `params[1]` and `params[2]` as it needs them. A browse page
looks at the number of pieces before it reads the third one, an image does
not. `myHandlerTraced` is the handler with a record of these accesses;
without the record it is `myHandler` (`value_myHandlerTraced`).
-/
import VideoMatch.Browse.Links
import VideoMatch.Cxx.Traced

namespace VideoMatch.Browse

open VideoMatch.Cxx VideoMatch.Machine HttpConnection Traced

/-! ## The handler with its accesses -/

/-- The id of a browse page. -/
def browseId (params : List Bytes) : Traced Int :=
  if params.length = 2 then pure 1
  else do
    let id ← index params 2
    pure (atoi id)

/-- A page about the frames of `params[1]`, whose body names the key another
`names` times. -/
def pageTraced (disk : Bytes → LoadOutcome) (g : Serving) (params : List Bytes)
    (page : Bytes → Int → Bytes) (names : Int → Nat) : Traced (Int × List Change × Serving) := do
  let key ← index params 1
  let (frmCnt, gvm) ← ofOption (g.gvm.lookupSize key (disk key))
  if frmCnt < 0 then
    pure (HTTP_404, [], { g with gvm := gvm })
  else do
    let key ← again params 1 (names frmCnt) key
    pure (reply (ascii "text/html") (page key frmCnt) g gvm)

/-- A browse page: the key is in two addresses, the title and the image. -/
def browseTraced (disk : Bytes → LoadOutcome) (g : Serving) (params : List Bytes) :
    Traced (Int × List Change × Serving) := do
  let curid ← browseId params
  pageTraced disk g params (fun key frmCnt => browseBody key curid frmCnt) fun _ => 4

/-- A browseall page: the key is in the title and each image. -/
def browseallTraced (disk : Bytes → LoadOutcome) (g : Serving) (params : List Bytes) :
    Traced (Int × List Change × Serving) :=
  pageTraced disk g params browseallBody fun frmCnt => 1 + frmCnt.toNat

/-- An image. -/
def imageTraced (disk : Bytes → LoadOutcome) (g : Serving) (params : List Bytes) :
    Traced (Int × List Change × Serving) := do
  let key ← index params 1
  let id ← index params 2
  let (ret, body, gvm) ← ofOption (g.gvm.lookup key (atoi id) [] (disk key))
  if ret < 0 then
    pure (HTTP_404, [], { g with gvm := gvm })
  else
    pure (reply (ascii "image/jpeg") body g gvm)

/-- `my_handler`, with each access `params[i]`. -/
def myHandlerTraced (disk : Bytes → LoadOutcome) (g : Serving) (conn : View) :
    Traced (Int × List Change × Serving) :=
  let params := splitPath conn.path
  if params.length < 2 then
    pure (HTTP_404, [], g)
  else do
    let kind ← index params 0
    if kind = ascii "browse" then
      browseTraced disk g params
    else do
      let kind ← index params 0
      if kind = ascii "browseall" then
        browseallTraced disk g params
      else do
        let kind ← index params 0
        if kind = ascii "image" then
          imageTraced disk g params
        else
          pure (HTTP_404, [], g)

/-! ## The handler without the record -/

section

variable (disk : Bytes → LoadOutcome) (g : Serving) (kind key : Bytes) (rest : List Bytes)

theorem value_pageTraced (page : Bytes → Int → Bytes) (names : Int → Nat) :
    (pageTraced disk g (kind :: key :: rest) page names).value =
      (g.gvm.lookupSize key (disk key)).map fun r =>
        if r.1 < 0 then (HTTP_404, [], { g with gvm := r.2 })
        else reply (ascii "text/html") (page key r.1) g r.2 := by
  have hkey : (kind :: key :: rest)[1]? = some key := rfl
  simp only [pageTraced, value_bind, value_index, hkey, Option.bind_some, value_ofOption,
    value_ite, value_pure, value_again hkey, Option.map_eq_bind]
  exact Option.bind_congr fun r _ => (apply_ite some _ _ _).symm

theorem value_browseId :
    (browseId (kind :: key :: rest)).value = some ((rest.head?.map atoi).getD 1) := by
  cases rest with
  | nil => rfl
  | cons id rest => simp [browseId]

theorem value_imageTraced : (imageTraced disk g (kind :: key :: rest)).value =
    rest.head?.bind fun id =>
      (g.gvm.lookup key (atoi id) [] (disk key)).map fun r =>
        if r.1 < 0 then (HTTP_404, [], { g with gvm := r.2.2 })
        else reply (ascii "image/jpeg") r.2.1 g r.2.2 := by
  have hid : (kind :: key :: rest)[2]? = rest.head? := by cases rest <;> rfl
  have hkey : (kind :: key :: rest)[1]? = some key := rfl
  simp only [imageTraced, value_bind, value_index, hkey, hid, Option.bind_some, value_ofOption,
    value_ite, value_pure, Option.map_eq_bind]
  exact Option.bind_congr fun id _ => Option.bind_congr fun r _ => (apply_ite some _ _ _).symm

end

/-- Without the record this is the handler. -/
theorem value_myHandlerTraced (disk : Bytes → LoadOutcome) (g : Serving) (conn : View) :
    (myHandlerTraced disk g conn).value = myHandler disk g conn := by
  unfold myHandlerTraced myHandler
  cases splitPath conn.path with
  | nil => rfl
  | cons kind params =>
      cases params with
      | nil => rfl
      | cons key rest =>
          have hlen : ¬ (kind :: key :: rest).length < 2 := by simp
          have hkind : (kind :: key :: rest)[0]? = some kind := rfl
          simp only [hlen, if_false, value_bind, value_index, hkind, Option.bind_some, value_ite,
            value_pure, browseTraced, value_browseId, browseallTraced, value_pageTraced,
            value_imageTraced]

/-! ## The accesses -/

theorem inBounds_pageTraced (disk : Bytes → LoadOutcome) (g : Serving) {params : List Bytes}
    (h : 1 < params.length) (page : Bytes → Int → Bytes) (names : Int → Nat) :
    InBounds (pageTraced disk g params page names) := by
  have hkey : params[1]? = some params[1] := List.getElem?_eq_getElem h
  simp only [pageTraced, inBounds_index_bind hkey, inBounds_bind, inBounds_ofOption, true_and]
  intro r _
  split
  · exact inBounds_pure _
  · exact (inBounds_bind _ _).mpr ⟨inBounds_again h _ _, fun _ _ => inBounds_pure _⟩

/-- The third piece is read after a look at their number. -/
theorem inBounds_browseId {params : List Bytes} (h : 1 < params.length) :
    InBounds (browseId params) := by
  unfold browseId
  split
  · exact inBounds_pure _
  · next hne =>
      refine (inBounds_bind _ _).mpr ⟨(inBounds_index _ _).mpr (by omega), fun _ _ => ?_⟩
      exact inBounds_pure _

/-- The third piece is read without one. -/
theorem inBounds_imageTraced (disk : Bytes → LoadOutcome) (g : Serving) {params : List Bytes}
    (h : 1 < params.length) : InBounds (imageTraced disk g params) ↔ 2 < params.length := by
  have hkey : params[1]? = some params[1] := List.getElem?_eq_getElem h
  simp only [imageTraced, inBounds_index_bind hkey, inBounds_bind, inBounds_index]
  refine ⟨fun hin => hin.1, fun hlt => ⟨hlt, fun id _ => ⟨inBounds_ofOption _, fun r _ => ?_⟩⟩⟩
  split <;> exact inBounds_pure _

theorem inBounds_browseTraced (disk : Bytes → LoadOutcome) (g : Serving) {params : List Bytes}
    (h : 1 < params.length) : InBounds (browseTraced disk g params) :=
  (inBounds_bind _ _).mpr
    ⟨inBounds_browseId h, fun curid _ => inBounds_pageTraced disk g h (browseBody · curid ·) _⟩

theorem inBounds_browseallTraced (disk : Bytes → LoadOutcome) (g : Serving) {params : List Bytes}
    (h : 1 < params.length) : InBounds (browseallTraced disk g params) :=
  inBounds_pageTraced disk g h _ _

/-- Only an image without an id reads a piece that is not there. -/
theorem inBounds_myHandlerTraced (disk : Bytes → LoadOutcome) (g : Serving) (conn : View) :
    InBounds (myHandlerTraced disk g conn) ↔
      ¬ ∃ key, splitPath conn.path = [ascii "image", key] := by
  unfold myHandlerTraced
  cases splitPath conn.path with
  | nil => simp
  | cons kind params =>
      cases params with
      | nil => simp
      | cons key rest =>
          have hlen : ¬ (kind :: key :: rest).length < 2 := by simp
          have hkey : 1 < (kind :: key :: rest).length := by simp
          have hkind : (kind :: key :: rest)[0]? = some kind := rfl
          have himage : (∃ key', kind :: key :: rest = [ascii "image", key']) ↔
              kind = ascii "image" ∧ rest = [] := by simp
          simp only [hlen, if_false, inBounds_index_bind hkind, himage]
          by_cases hbrowse : kind = ascii "browse"
          · have hnot : ¬ ascii "browse" = ascii "image" := by decide
            simp only [hbrowse, if_true, hnot, false_and, not_false_eq_true, iff_true]
            exact inBounds_browseTraced disk g hkey
          · rw [if_neg hbrowse, inBounds_index_bind hkind]
            by_cases hall : kind = ascii "browseall"
            · have hnot : ¬ ascii "browseall" = ascii "image" := by decide
              simp only [hall, if_true, hnot, false_and, not_false_eq_true, iff_true]
              exact inBounds_browseallTraced disk g hkey
            · rw [if_neg hall, inBounds_index_bind hkind]
              by_cases hkindImage : kind = ascii "image"
              · rw [if_pos hkindImage, inBounds_imageTraced disk g hkey]
                cases rest <;> simp [hkindImage]
              · simp [hkindImage]

/-! ## The paths without an id -/

/-- Nothing but slashes. -/
def Slashes (s : Bytes) : Prop := ∀ b ∈ s, b = 47

theorem Slashes.eq_nil_or_cons {s : Bytes} (h : Slashes s) : s = [] ∨ ∃ t, s = 47 :: t := by
  cases s with
  | nil => exact .inl rfl
  | cons b s => exact .inr ⟨s, by rw [h b (by simp)]⟩

theorem splitPath_slashes {s : Bytes} (hs : Slashes s) (path : Bytes) :
    splitPath (s ++ path) = splitPath path := by
  induction s with
  | nil => rfl
  | cons b s ih =>
      rw [hs b (by simp), List.cons_append, splitPath_slash]
      exact ih fun b hb => hs b (List.mem_cons_of_mem _ hb)

/-- A piece ends at a slash or at the end of the path. -/
theorem splitPath_first {x rest : Bytes} (hx : 47 ∉ x) (hne : x ≠ [])
    (hrest : rest = [] ∨ ∃ t, rest = 47 :: t) : splitPath (x ++ rest) = x :: splitPath rest := by
  rcases hrest with rfl | ⟨t, rfl⟩
  · rw [List.append_nil, splitPath_last hx, if_neg hne]
    rfl
  · rw [splitPath_piece hx hne, splitPath_slash]

/-- The first piece of a path that has one. -/
theorem exists_piece {path : Bytes} (h : ¬ Slashes path) :
    ∃ s x rest, path = s ++ x ++ rest ∧ Slashes s ∧ x ≠ [] ∧ 47 ∉ x ∧
      (rest = [] ∨ ∃ t, rest = 47 :: t) := by
  induction path with
  | nil => exact absurd (fun b hb => by cases hb) h
  | cons b path ih =>
      by_cases hb : b = 47
      · have hother : ¬ Slashes path := fun hs => h (List.forall_mem_cons.mpr ⟨hb, hs⟩)
        obtain ⟨s, x, rest, rfl, hs, hpiece⟩ := ih hother
        exact ⟨b :: s, x, rest, rfl, List.forall_mem_cons.mpr ⟨hb, hs⟩, hpiece⟩
      · refine ⟨[], (b :: path).takeWhile (· ≠ 47), (b :: path).dropWhile (· ≠ 47), ?_, ?_, ?_, ?_,
          ?_⟩
        · rw [List.nil_append, List.takeWhile_append_dropWhile]
        · intro c hc
          cases hc
        · simp [hb]
        · intro hmem
          simpa using List.mem_takeWhile_imp hmem
        · cases hrest : (b :: path).dropWhile (· ≠ 47) with
          | nil => exact .inl rfl
          | cons c t =>
              have hc := List.head?_dropWhile_not (fun b : UInt8 => decide (b ≠ 47)) (b :: path)
              rw [hrest] at hc
              exact .inr ⟨t, by simpa using hc⟩

/-- A path without pieces has only slashes. -/
theorem splitPath_eq_nil_iff {path : Bytes} : splitPath path = [] ↔ Slashes path := by
  constructor
  · intro hnil
    by_contra hother
    obtain ⟨s, x, rest, rfl, hs, hne, hx, hrest⟩ := exists_piece hother
    rw [List.append_assoc, splitPath_slashes hs, splitPath_first hx hne hrest] at hnil
    cases hnil
  · intro hs
    have hpath := splitPath_slashes hs []
    rw [List.append_nil] at hpath
    rw [hpath]
    rfl

/-- The first piece of a path, between slashes. -/
theorem splitPath_eq_cons_iff {path x : Bytes} {xs : List Bytes} :
    splitPath path = x :: xs ↔ ∃ s rest, path = s ++ x ++ rest ∧ Slashes s ∧ x ≠ [] ∧ 47 ∉ x ∧
      (rest = [] ∨ ∃ t, rest = 47 :: t) ∧ splitPath rest = xs := by
  constructor
  · intro hsplit
    have hother : ¬ Slashes path := by
      rw [← splitPath_eq_nil_iff, hsplit]
      simp
    obtain ⟨s, y, rest, rfl, hs, hne, hy, hrest⟩ := exists_piece hother
    rw [List.append_assoc, splitPath_slashes hs, splitPath_first hy hne hrest,
      List.cons.injEq] at hsplit
    obtain ⟨rfl, hxs⟩ := hsplit
    exact ⟨s, rest, rfl, hs, hne, hy, hrest, hxs⟩
  · intro hpath
    obtain ⟨s, rest, rfl, hs, hne, hx, hrest, rfl⟩ := hpath
    rw [List.append_assoc, splitPath_slashes hs, splitPath_first hx hne hrest]

/-- The path names an image but no id: two pieces with slashes around and
between them, and the first piece is `image`. -/
def NamesNoId (path : Bytes) : Prop :=
  ∃ s₁ s₂ s₃ key, path = s₁ ++ ascii "image" ++ s₂ ++ key ++ s₃ ∧ Slashes s₁ ∧ Slashes s₂ ∧
    Slashes s₃ ∧ s₂ ≠ [] ∧ key ≠ [] ∧ 47 ∉ key

theorem splitPath_image_iff {path : Bytes} :
    (∃ key, splitPath path = [ascii "image", key]) ↔ NamesNoId path := by
  constructor
  · intro hsplit
    obtain ⟨key, hsplit⟩ := hsplit
    obtain ⟨s₁, rest, rfl, hs₁, -, -, hrest, hsplit⟩ := splitPath_eq_cons_iff.mp hsplit
    obtain ⟨s₂, s₃, rfl, hs₂, hne, hkey, -, hsplit⟩ := splitPath_eq_cons_iff.mp hsplit
    refine ⟨s₁, s₂, s₃, key, by simp only [List.append_assoc], hs₁, hs₂,
      splitPath_eq_nil_iff.mp hsplit, ?_, hne, hkey⟩
    -- without a slash the key would belong to the first piece
    rintro rfl
    obtain ⟨b, key, rfl⟩ := List.exists_cons_of_ne_nil hne
    rcases hrest with hnil | ⟨t, ht⟩
    · cases hnil
    · cases ht
      exact hkey (by simp)
  · intro hpath
    obtain ⟨s₁, s₂, s₃, key, rfl, hs₁, hs₂, hs₃, hne₂, hne, hkey⟩ := hpath
    have hkeySplit : splitPath (s₂ ++ key ++ s₃) = [key] :=
      splitPath_eq_cons_iff.mpr
        ⟨s₂, s₃, rfl, hs₂, hne, hkey, hs₃.eq_nil_or_cons, splitPath_eq_nil_iff.mpr hs₃⟩
    obtain ⟨t, rfl⟩ := hs₂.eq_nil_or_cons.resolve_left hne₂
    exact ⟨key, splitPath_eq_cons_iff.mpr ⟨s₁, 47 :: t ++ key ++ s₃,
      by simp only [List.append_assoc], hs₁, by decide, by decide, .inr ⟨t ++ key ++ s₃, rfl⟩,
      hkeySplit⟩⟩

/-- Every access of the handler is in range exactly if the path is not that
of an image without an id. -/
theorem params_in_range_iff (disk : Bytes → LoadOutcome) (g : Serving) (conn : View) :
    (∀ r ∈ (myHandlerTraced disk g conn).accesses, r.1 < r.2) ↔ ¬ NamesNoId conn.path := by
  rw [← splitPath_image_iff]
  exact inBounds_myHandlerTraced disk g conn

/-- The path of an image without its id: the last access is `params[2]` of
two pieces. -/
theorem image_without_id_out_of_range :
    NamesNoId (ascii "/image/v") ∧
      ¬ ∀ r ∈ (myHandlerTraced (fun _ => ⟨false, none⟩) ⟨startVm 1 [], 0⟩
        ⟨.HTTP_GET, ascii "/image/v", [], false⟩).accesses, r.1 < r.2 := by
  exact ⟨⟨[47], [47], [], ascii "v", rfl, by simp [Slashes], by simp [Slashes],
    by simp [Slashes], by decide⟩, by decide +kernel⟩

end VideoMatch.Browse
