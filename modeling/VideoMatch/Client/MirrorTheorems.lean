/-
VideoMatch.Client.MirrorTheorems — whether a picture and its mirror image
are prepared alike.

`mirror` chooses between a picture and its mirror image by the sums of
their halves, so it undoes a reflection if these differ
(`oriented_eq_iff`). `crop_border` finds the same borders in the mirror
image, on the other sides (`content_mirrorX`). But the bound `x2` is
exclusive where it is found and inclusive where it is used, and the tenth
is rounded down on the left and up on the right. The two cancel unless the
width of the content is a multiple of ten; then the part that is kept of
the mirror image is the reflection of the part one column to the left
(`keptOf_mirrorX`).

Pixels are rational numbers here. For floating-point numbers, a sum
depends on the order of its terms.
-/
import VideoMatch.Client.CropTheorems

namespace VideoMatch.Client

open VideoMatch.Cxx FloatOps

/-! ## The choice of `mirror` -/

/-- The sum of the left half. -/
def leftSum (img : CImg ℚ) : ℚ :=
  ∑ x ∈ Finset.range (img.width / 2), ∑ y ∈ Finset.range img.height, img.pixelAt 0 x y

/-- The right half is the left half of the mirror image. -/
theorem halfSums_eq (img : CImg ℚ) :
    halfSums exact img = some (leftSum img, leftSum img.mirrorX) := by
  have hcol : ∀ x < img.width / 2, ∀ sums : ℚ × ℚ,
      (List.range img.height).foldlM (fun sums y => do
        let a ← img.data x y
        let b ← img.data (img.width - 1 - x) y
        some (exact.add sums.1 a, exact.add sums.2 b)) sums
      = some (sums + ∑ y ∈ Finset.range img.height,
          (img.pixelAt 0 x y, img.mirrorX.pixelAt 0 x y)) := by
    intro x hx sums
    apply foldlM_range_sum
    intro y hy sums
    have hright : ((img.width - 1 - x : Nat) : Int) = img.width - 1 - x := by omega
    rw [img.data_eq 0 (by omega) hy, img.data_eq 0 (by omega) hy, hright, CImg.pixelAt_mirrorX]
    rfl
  rw [halfSums, foldlM_range_sum hcol]
  simp only [leftSum, Prod.ext_iff, Option.some.injEq, Prod.fst_add, Prod.snd_add, Prod.fst_sum,
    Prod.snd_sum, CImg.width_mirrorX, CImg.height_mirrorX]
  exact ⟨zero_add _, zero_add _⟩

/-- The picture or its mirror image, whichever has more on the left. -/
def oriented (img : CImg ℚ) : CImg ℚ :=
  if leftSum img < leftSum img.mirrorX then img.mirrorX else img

theorem mirror_eq (img : CImg ℚ) : mirror exact img = some (oriented img) := by
  rw [mirror, halfSums_eq, Option.map_some, oriented]
  simp only [exact, decide_eq_true_eq]

theorem oriented_eq_or (img : CImg ℚ) : oriented img = img ∨ oriented img = img.mirrorX := by
  rw [oriented]
  split
  · exact .inr rfl
  · exact .inl rfl

/-- A picture whose halves differ is turned the same way as its mirror
image. -/
theorem oriented_mirrorX {img : CImg ℚ} (h : leftSum img ≠ leftSum img.mirrorX) :
    oriented img.mirrorX = oriented img := by
  rw [oriented, oriented, CImg.mirrorX_mirrorX]
  rcases lt_or_gt_of_ne h with hlt | hgt
  · rw [if_neg hlt.not_gt, if_pos hlt]
  · rw [if_pos hgt, if_neg hgt.not_gt]

theorem oriented_eq_iff {img img' : CImg ℚ} (h : leftSum img ≠ leftSum img.mirrorX) :
    oriented img = oriented img' ↔ img' = img ∨ img' = img.mirrorX := by
  constructor
  · intro hsame
    rcases oriented_eq_or img with himg | himg <;> rcases oriented_eq_or img' with himg' | himg' <;>
      rw [himg, himg'] at hsame
    · exact .inl hsame.symm
    · exact .inr (by rw [hsame, CImg.mirrorX_mirrorX])
    · exact .inr hsame.symm
    · exact .inl (by rw [← CImg.mirrorX_mirrorX img', ← hsame, CImg.mirrorX_mirrorX])
  · intro hor
    rcases hor with rfl | rfl
    · rfl
    · exact (oriented_mirrorX h).symm

/-! ## The borders of the mirror image -/

theorem exact_zero : exact.ofNat 0 = 0 := Nat.cast_zero

theorem lineSum_reverse (l : List ℚ) : lineSum exact l.reverse = lineSum exact l := by
  have hsum : ∀ l : List ℚ, lineSum exact l = l.sum := by
    intro l
    rw [List.sum_eq_foldl, lineSum, exact_zero]
    rfl
  rw [hsum, hsum, List.sum_reverse]

theorem average_reverse (d : Nat) (l : List ℚ) :
    average exact d l.reverse = average exact d l := by
  rw [average, lineSum_reverse, average]

theorem deviation_reverse (d : Nat) (l : List ℚ) :
    deviation exact d l.reverse = deviation exact d l := by
  rw [deviation, average_reverse, List.map_reverse, lineSum_reverse, deviation]

theorem border_reverse (d : Nat) (lines : Nat → List ℚ) (n : Nat) :
    border exact d (fun i => (lines i).reverse) n = border exact d lines n := by
  have hbusy : busy exact d (fun i => (lines i).reverse) = busy exact d lines := by
    funext i
    simp only [busy, average_reverse, deviation_reverse]
  rw [border, hbusy, border]

/-- The bounds in the mirror image of a picture of `w` columns. -/
def Bounds.flip (w : Int) (b : Bounds) : Bounds := ⟨w - b.x2, w - b.x1, b.y1, b.y2⟩

theorem Bounds.nw_flip (w : Int) (b : Bounds) : (b.flip w).nw = b.nw :=
  sub_sub_sub_cancel_left _ _ _

theorem Bounds.large_flip (w : Int) (b : Bounds) : (b.flip w).Large ↔ b.Large := by
  rw [Bounds.Large, Bounds.nw_flip]
  rfl

theorem content_mirrorX (d : Nat) (img : CImg ℚ) :
    content exact d img.mirrorX = (content exact d img).flip img.width := by
  simp only [content, Bounds.flip, CImg.row_mirrorX, CImg.col_mirrorX, CImg.width_mirrorX,
    CImg.height_mirrorX, border_reverse, sub_sub_cancel]

/-! ## The tenths in the mirror image -/

/-- By how many columns the mirror image is cropped differently. -/
def Bounds.shift (b : Bounds) : Int := if 10 ∣ b.nw then 1 else 0

/-- On the left the bound is inclusive and the tenth is rounded down, on
the right the bound is exclusive and the tenth is rounded up. -/
theorem Bounds.shrink_flip {w : Int} {b : Bounds} (hx : 0 ≤ b.x1 ∧ b.x1 ≤ b.x2 ∧ b.x2 ≤ w)
    (hy : 0 ≤ b.y1 ∧ b.y1 ≤ b.y2) :
    (b.flip w).shrink = ⟨w - 1 - (b.shrink.x2 - b.shift), w - 1 - (b.shrink.x1 - b.shift),
      b.shrink.y1, b.shrink.y2⟩ := by
  have hnh : (b.flip w).nh = b.nh := rfl
  have hx' : 0 ≤ (b.flip w).x1 ∧ (b.flip w).x1 ≤ (b.flip w).x2 := by
    simp only [Bounds.flip]
    omega
  rw [shrink_eq hx' hy, Bounds.nw_flip, hnh, shrink_eq ⟨hx.1, hx.2.1⟩ hy, Bounds.shift]
  simp only [Bounds.flip, Bounds.mk.injEq, and_true]
  split <;> omega

/-! ## The picture and its mirror image -/

/-- The mirror image of a picture is prepared like the picture. -/
def PreparedAlike (img : CImg ℚ) : Prop := ∃ p,
  cropAndMirror exact img = some (some p) ∧ cropAndMirror exact img.mirrorX = some (some p)

/-- What `crop_border` keeps of a picture. -/
def keptOf (img : CImg ℚ) : CImg ℚ := kept exact (content exact img.width img) img

theorem cropBorder_of_large {img : CImg ℚ} (h : (content exact img.width img).Large) :
    cropBorder exact img = some (0, keptOf img) := by
  rw [cropBorder_eq, cropWith_of_large exact h, keptOf]

theorem cropAndMirror_of_large {img : CImg ℚ} (h : (content exact img.width img).Large) :
    cropAndMirror exact img = some (some (oriented (keptOf img))) := by
  rw [cropAndMirror, cropBorder_of_large h]
  simp only [Option.bind_eq_bind, Option.bind_some, mirror_eq, Option.map_some]
  rfl

/-- If the halves differ, it only matters whether the same is kept, in one
of both orientations. -/
theorem preparedAlike_iff_keptOf {img : CImg ℚ} (h : (content exact img.width img).Large)
    (hsides : leftSum (keptOf img) ≠ leftSum (keptOf img).mirrorX) :
    PreparedAlike img ↔
      keptOf img.mirrorX = keptOf img ∨ keptOf img.mirrorX = (keptOf img).mirrorX := by
  have h' : (content exact img.mirrorX.width img.mirrorX).Large := by
    rwa [CImg.width_mirrorX, content_mirrorX, Bounds.large_flip]
  rw [PreparedAlike, cropAndMirror_of_large h, cropAndMirror_of_large h', ← oriented_eq_iff hsides]
  simp only [Option.some.injEq]
  constructor
  · intro hsame
    obtain ⟨p, hp, hp'⟩ := hsame
    rw [hp, hp']
  · intro hsame
    exact ⟨_, rfl, hsame.symm⟩

theorem keptOf_eq {img : CImg ℚ} {b : Bounds} (hb : content exact img.width img = b) :
    keptOf img = img.crop 0 b.shrink.x1 b.shrink.y1 b.shrink.x2 b.shrink.y2 := by
  rw [keptOf, kept, hb, exact_zero]

theorem keptOf_mirrorX {img : CImg ℚ} {b : Bounds} (hb : content exact img.width img = b)
    (h : b.Large) : keptOf img.mirrorX
      = (img.crop 0 (b.shrink.x1 - b.shift) b.shrink.y1 (b.shrink.x2 - b.shift)
          b.shrink.y2).mirrorX := by
  have hnw : b.nw = b.x2 - b.x1 := rfl
  have hnh : b.nh = b.y2 - b.y1 := rfl
  obtain ⟨⟨hx, hxw⟩, hy, -⟩ := hb ▸ content_within exact img.width img
  obtain ⟨hw, hh⟩ := h
  have hflip : content exact img.mirrorX.width img.mirrorX = b.flip img.width := by
    rw [CImg.width_mirrorX, content_mirrorX, hb]
  rw [keptOf_eq hflip, Bounds.shrink_flip ⟨hx, by omega, hxw⟩ ⟨hy, by omega⟩, CImg.mirrorX_crop]

/-- What is kept together with the column left of it. -/
def widened (img : CImg ℚ) : CImg ℚ :=
  let b := (content exact img.width img).shrink
  img.crop 0 (b.x1 - 1) b.y1 b.x2 b.y2

/-- Unless the width of the content is a multiple of ten, the mirror image
is prepared like the picture. If it is one, this is so exactly if what is
kept, together with the column left of it, is its own mirror image. -/
theorem preparedAlike_iff {img c : CImg ℚ} {suma sumb : ℚ}
    (hcrop : cropBorder exact img = some (0, c)) (hsums : halfSums exact c = some (suma, sumb))
    (hdiff : suma ≠ sumb) :
    PreparedAlike img ↔
      ¬ 10 ∣ (content exact img.width img).nw ∨ (widened img).mirrorX = widened img := by
  rw [cropBorder_eq, Option.some.injEq] at hcrop
  have hlarge := (cropWith_fst_eq_zero_iff exact _ img).mp (congrArg Prod.fst hcrop)
  rw [cropWith_of_large exact hlarge] at hcrop
  obtain rfl : keptOf img = c := congrArg Prod.snd hcrop
  have hsides : leftSum (keptOf img) ≠ leftSum (keptOf img).mirrorX := by
    rw [halfSums_eq, Option.some.injEq, Prod.mk.injEq] at hsums
    rwa [hsums.1, hsums.2]
  obtain ⟨⟨hx, -⟩, hy, -⟩ := content_within exact img.width img
  rw [preparedAlike_iff_keptOf hlarge hsides, widened]
  rw [keptOf_eq rfl] at hsides
  rw [keptOf_mirrorX rfl hlarge, keptOf_eq rfl, Bounds.shift]
  by_cases h10 : 10 ∣ (content exact img.width img).nw
  · -- the mirror image is cropped one column further
    rw [if_pos h10, or_iff_right (not_not.mpr h10),
      CImg.mirrorX_crop_pred_eq_iff 0 img _ _ (hlarge.shrink_lt hx hy).1.le]
    refine or_iff_left fun hsame => hsides ?_
    have hpred := congrArg CImg.mirrorX hsame
    rw [CImg.mirrorX_mirrorX, CImg.mirrorX_mirrorX] at hpred
    rw [CImg.mirrorX_crop_of_pred_eq 0 img hpred]
  · rw [if_neg h10, Int.sub_zero, Int.sub_zero]
    exact iff_of_true (.inr rfl) (.inl h10)

/-- Dots that become brighter from left to right. -/
def dots (n : Nat) : CImg ℚ where
  width := n
  height := n
  pixel x y := if (x.val + y.val) % 2 = 0 then 0 else 5 * x.val + 21

/-- 41 columns, all of them content. -/
theorem dots_41_prepared_alike : PreparedAlike (dots 41) := by
  have hlarge : (content exact (dots 41).width (dots 41)).Large := by decide +kernel
  have hwidth : ¬ 10 ∣ (content exact (dots 41).width (dots 41)).nw := by decide +kernel
  have hsides : leftSum (keptOf (dots 41)) ≠ leftSum (keptOf (dots 41)).mirrorX := by
    decide +kernel
  exact (preparedAlike_iff (cropBorder_of_large hlarge) (halfSums_eq _) hsides).mpr (.inl hwidth)

/-- 40 columns, of which the columns 4 to 36 are kept. Of the mirror image
they are kept, too, but these are the columns 3 to 35 of the picture. -/
theorem dots_40_prepared_differently : ∃ c suma sumb,
    cropBorder exact (dots 40) = some (0, c) ∧ halfSums exact c = some (suma, sumb) ∧
      suma ≠ sumb ∧ ¬ PreparedAlike (dots 40) := by
  have hlarge : (content exact (dots 40).width (dots 40)).Large := by decide +kernel
  have hsides : leftSum (keptOf (dots 40)) ≠ leftSum (keptOf (dots 40)).mirrorX := by
    decide +kernel
  refine ⟨keptOf (dots 40), _, _, cropBorder_of_large hlarge, halfSums_eq _, hsides, ?_⟩
  have hcorner : (keptOf (dots 40)).data 0 0 = some 0 ∧
      (keptOf (dots 40)).mirrorX.data 0 0 = some 0 ∧
      (keptOf (dots 40).mirrorX).data 0 0 = some 196 := by decide +kernel
  rw [preparedAlike_iff_keptOf hlarge hsides]
  intro h
  rcases h with hsame | hsame
  · rw [hsame, hcorner.1] at hcorner
    exact absurd hcorner.2.2 (by decide)
  · rw [hsame, hcorner.2.1] at hcorner
    exact absurd hcorner.2.2 (by decide)

end VideoMatch.Client
