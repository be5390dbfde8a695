/-
VideoMatch.Client.TransposeTheorems — whether `crop_border` treats rows and
columns alike.

Cropping the transposed picture is the same as cropping the picture itself
with its lines measured by the height instead of the width, and transposing
the result (`cropBorder_transpose`). `crop_border` measures all lines, rows
and columns, by the width. So it finds the same borders in both exactly if
this makes no difference to any line that a scan comes to
(`findBorders_transpose_iff`), and then it treats rows and columns alike
(`rows_as_columns`). A square picture has lines of one length. A white
column at the side of a wide picture is kept, the same column as a row of
the transposed picture is cut off (`white_columns_kept`).
-/
import VideoMatch.Client.CropTheorems

namespace VideoMatch.Client

open VideoMatch.Cxx

variable {α : Type} (F : FloatOps α)

/-! ## The transposed picture -/

def Bounds.swap (b : Bounds) : Bounds := ⟨b.y1, b.y2, b.x1, b.x2⟩

theorem Bounds.shrink_swap (b : Bounds) : b.swap.shrink = b.shrink.swap := rfl

theorem Bounds.large_swap (b : Bounds) : b.swap.Large ↔ b.Large := And.comm

theorem content_transpose (d : Nat) (img : CImg α) :
    content F d img.transpose = (content F d img).swap := by
  simp only [content, Bounds.swap, CImg.row_transpose, CImg.col_transpose, CImg.width_transpose,
    CImg.height_transpose]

theorem kept_transpose (b : Bounds) (img : CImg α) :
    kept F b.swap img.transpose = (kept F b img).transpose := by
  rw [kept, kept, CImg.transpose_crop, Bounds.shrink_swap]
  rfl

theorem cropWith_transpose (b : Bounds) (img : CImg α) :
    cropWith F b.swap img.transpose = ((cropWith F b img).1, (cropWith F b img).2.transpose) := by
  by_cases h : b.Large
  · rw [cropWith_of_large F h, cropWith_of_large F (b.large_swap.mpr h), kept_transpose]
  · rw [cropWith_of_not_large F h, cropWith_of_not_large F (b.large_swap.not.mpr h)]

/-- The columns of a picture are the rows of the transposed one. -/
theorem cropBorder_transpose (img : CImg α) : cropBorder F img.transpose
    = some ((cropWith F (content F img.height img) img).1,
      (cropWith F (content F img.height img) img).2.transpose) := by
  rw [cropBorder_eq, CImg.width_transpose, content_transpose, cropWith_transpose]

/-! ## Rows and columns -/

/-- `crop_border` succeeds on the picture exactly if it does so on the
transposed picture, and then the results are transposed, too. -/
def TreatsAlike (img : CImg α) : Prop := ∃ r c r' c',
  cropBorder F img = some (r, c) ∧ cropBorder F img.transpose = some (r', c') ∧
    (r = 0 ↔ r' = 0) ∧ (r = 0 → c' = c.transpose)

/-- Of the lines of one side, the scan judges each one it comes to the same
with `d` and with `d'` for the number of pixels. The last line of its half
does not matter: it ends the scan however it is judged. -/
def SideAlike (d d' : Nat) (lines : Nat → List α) (n : Nat) : Prop :=
  ∀ i, i + 1 < n / 2 → (∀ j < i, busy F d lines j = false) →
    busy F d lines i = busy F d' lines i

/-- No line that is scanned is judged differently if it is measured by the
height of the picture instead of the width. -/
structure LinesAlike (img : CImg α) : Prop where
  left : SideAlike F img.width img.height (fun x => img.col (F.ofNat 0) x) img.width
  right : SideAlike F img.width img.height
    (fun x => img.col (F.ofNat 0) (img.width - 1 - x)) img.width
  top : SideAlike F img.width img.height (fun y => img.row (F.ofNat 0) y) img.height
  bottom : SideAlike F img.width img.height
    (fun y => img.row (F.ofNat 0) (img.height - 1 - y)) img.height

/-- The lines of a square picture have one length. -/
theorem linesAlike_of_square {img : CImg α} (h : img.width = img.height) : LinesAlike F img := by
  constructor <;> rw [h] <;> exact fun _ _ _ => rfl

theorem border_eq_iff {d d' : Nat} {lines : Nat → List α} {n : Nat} :
    border F d lines n = border F d' lines n ↔ SideAlike F d d' lines n := stopAt_eq_iff

theorem content_eq_iff (img : CImg α) :
    content F img.width img = content F img.height img ↔ LinesAlike F img := by
  simp only [content, Bounds.mk.injEq, sub_right_inj, Int.natCast_inj, border_eq_iff]
  constructor
  · intro h
    exact ⟨h.1, h.2.1, h.2.2.1, h.2.2.2⟩
  · intro h
    exact ⟨h.left, h.right, h.top, h.bottom⟩

/-- The borders of the transposed picture are those of the picture exactly
if no scanned line is judged differently. -/
theorem findBorders_transpose_iff (img : CImg α) :
    findBorders F img.transpose = (findBorders F img).map Bounds.swap ↔ LinesAlike F img := by
  -- a side that is not scanned has no lines to compare
  have hside : ∀ (lines : Nat → List α) (n : Nat) (pos : Nat → Int),
      ((if n / 2 = 0 then 0 else pos (border F img.height lines n))
        = if n / 2 = 0 then 0 else pos (border F img.width lines n)) ↔
      pos (border F img.width lines n) = pos (border F img.height lines n) := by
    intro lines n pos
    split
    · next hn => simp [border, hn, stopAt]
    · exact eq_comm
  rw [← content_eq_iff, findBorders_eq, findBorders_eq, Option.map_some, Option.some.injEq,
    CImg.width_transpose, CImg.height_transpose, content_transpose]
  simp only [Bounds.swap, content, Bounds.mk.injEq]
  rw [hside _ _ fun n => (n : Int), hside _ _ fun n => (img.height - n : Int),
    hside _ _ fun n => (n : Int), hside _ _ fun n => (img.width - n : Int)]
  constructor
  · intro h
    exact ⟨h.2.2.1, h.2.2.2, h.1, h.2.1⟩
  · intro h
    exact ⟨h.2.2.1, h.2.2.2, h.1, h.2.1⟩

/-- A picture with fewer than 32 rows or columns is too small however its
lines are measured. -/
theorem not_large_of_small (d : Nat) {img : CImg α} (h : img.width < 32 ∨ img.height < 32) :
    ¬ (content F d img).Large := by
  obtain ⟨hx, hy⟩ := content_within F d img
  simp only [Bounds.Large, Bounds.nw, Bounds.nh]
  omega

/-- The borders that are found in the transposed picture are those of the
picture exactly if no line that is scanned is judged differently by the two
divisors. Then rows and columns are treated alike, as they are in a square
picture and in one that is too small to be cropped. -/
theorem rows_as_columns (img : CImg α) :
    (findBorders F img.transpose = (findBorders F img).map Bounds.swap ↔ LinesAlike F img) ∧
    (img.width = img.height ∨ img.width < 32 ∨ img.height < 32 ∨ LinesAlike F img →
      TreatsAlike F img) := by
  refine ⟨findBorders_transpose_iff F img, fun h => ?_⟩
  have hresult : cropWith F (content F img.width img) img
      = cropWith F (content F img.height img) img := by
    rcases h with hsquare | hwidth | hheight | halike
    · rw [(content_eq_iff F img).mpr (linesAlike_of_square F hsquare)]
    · rw [cropWith_of_not_large F (not_large_of_small F _ (.inl hwidth)),
        cropWith_of_not_large F (not_large_of_small F _ (.inl hwidth))]
    · rw [cropWith_of_not_large F (not_large_of_small F _ (.inr hheight)),
        cropWith_of_not_large F (not_large_of_small F _ (.inr hheight))]
    · rw [(content_eq_iff F img).mpr halike]
  have htranspose := cropBorder_transpose F img
  rw [← hresult] at htranspose
  exact ⟨_, _, _, _, cropBorder_eq F img, htranspose, Iff.rfl, fun _ => rfl⟩

/-- A wide checkerboard. Its first lines are no borders, with either
divisor. -/
def wideBoard : CImg ℚ where
  width := 80
  height := 40
  pixel x y := if (x.val + y.val) % 2 = 0 then 255 else 0

theorem rows_as_columns_wideBoard : TreatsAlike FloatOps.exact wideBoard := by
  have hside : ∀ {lines n}, busy FloatOps.exact 80 lines 0 = true →
      busy FloatOps.exact 40 lines 0 = true → SideAlike FloatOps.exact 80 40 lines n := by
    intro lines n h80 h40 i _ hbefore
    cases i with
    | zero => rw [h80, h40]
    | succ i => exact absurd ((hbefore 0 (Nat.succ_pos i)).symm.trans h80) (by decide)
  have halike : LinesAlike FloatOps.exact wideBoard :=
    ⟨hside (by decide +kernel) (by decide +kernel), hside (by decide +kernel) (by decide +kernel),
      hside (by decide +kernel) (by decide +kernel), hside (by decide +kernel) (by decide +kernel)⟩
  exact (rows_as_columns FloatOps.exact wideBoard).2 (.inr (.inr (.inr halike)))

/-- The condition on the lines is not necessary. In a white picture the
columns are judged differently, but either way too little is left of it. -/
def whitePicture : CImg ℚ := ⟨80, 40, fun _ _ => 255⟩

example : TreatsAlike FloatOps.exact whitePicture ∧ ¬ LinesAlike FloatOps.exact whitePicture := by
  have hsmall : ¬ (content FloatOps.exact whitePicture.width whitePicture).Large := by
    decide +kernel
  have hsmall' : ¬ (content FloatOps.exact whitePicture.height whitePicture).Large := by
    decide +kernel
  have hcrop := cropBorder_eq FloatOps.exact whitePicture
  have hcrop' := cropBorder_transpose FloatOps.exact whitePicture
  rw [cropWith_of_not_large _ hsmall] at hcrop
  rw [cropWith_of_not_large _ hsmall'] at hcrop'
  refine ⟨⟨_, _, _, _, hcrop, hcrop', Iff.rfl, fun _ => rfl⟩, fun h => ?_⟩
  have hfirst := h.left 0 (by decide) fun j hj => absurd hj (Nat.not_lt_zero j)
  exact absurd hfirst (by decide +kernel)

/-- Four white columns at the left of a wide picture, the rest of which is
a checkerboard. -/
def whiteColumns : CImg ℚ where
  width := 80
  height := 40
  pixel x y := if x < 4 ∨ (x.val + y.val) % 2 = 0 then 255 else 0

/-- The white columns are kept, the white rows of the transposed picture
are cut off. -/
theorem white_columns_kept : (∀ x y, 0 ≤ whiteColumns.pixel x y ∧ whiteColumns.pixel x y ≤ 255) ∧
    ¬ TreatsAlike FloatOps.exact whiteColumns := by
  constructor
  · intro x y
    unfold whiteColumns
    dsimp only
    split <;> norm_num
  · intro h
    obtain ⟨r, c, r', c', hcrop, hcrop', -, hc⟩ := h
    have hwidth : (cropBorder FloatOps.exact whiteColumns).map (fun p => (p.1, p.2.width))
        = some (0, 65) := by decide +kernel
    have hheight : (cropBorder FloatOps.exact whiteColumns.transpose).map (fun p => p.2.height)
        = some 62 := by decide +kernel
    rw [hcrop, Option.map_some, Option.some.injEq, Prod.mk.injEq] at hwidth
    rw [hcrop', Option.map_some, Option.some.injEq, hc hwidth.1, CImg.height_transpose,
      hwidth.2] at hheight
    exact absurd hheight (by decide)

end VideoMatch.Client
