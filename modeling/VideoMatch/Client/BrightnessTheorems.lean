/-
VideoMatch.Client.BrightnessTheorems — backgrounds and brighter pictures.

A background is something that is added to a picture and that is made of
whole columns and rows. Cropping, mirroring, blurring and shrinking turn a
background into another one (`Layered`), and the hash does not see it
(`hash_ignores_background`).

What is left is where the picture is cropped and which half is on the left.
If only the brightness is another one, both halves change alike. The search
for the borders compares deviations, so it does not see the brightness
either, except that it divides the columns by the width. So for a square
picture the brightness does not matter at all (`brightness_ignored`).

Pixels are real numbers here.
-/
import VideoMatch.Client.HashTheorems

namespace VideoMatch.Client

open VideoMatch.Cxx VideoMatch.Machine

/-- The pixels of a brighter picture, or of one with more contrast. -/
def brighten (a b p : ℝ) : ℝ := a * p + b

/-! ## Lines -/

/-- A border depends on which lines are busy. -/
theorem border_congr {α β : Type} {F : FloatOps α} {G : FloatOps β} {d d' n : Nat}
    {lines : Nat → List α} {lines' : Nat → List β}
    (h : ∀ i < n, busy G d' lines' i = busy F d lines i) :
    border G d' lines' n = border F d lines n := by
  rw [border, border, stopAt, stopAt]
  congr 1
  refine List.find?_congr fun i hi => ?_
  have hi := List.mem_range.mp hi
  exact h i (by omega)

theorem row_map {α β : Type} (φ : α → β) (c : CImg α) (fill : α) (fill' : β) {y : Int}
    (hy : 0 ≤ y ∧ y < c.height) : (c.map φ).row fill' y = (c.row fill y).map φ := by
  simp only [CImg.row, List.map_map, CImg.width_map]
  refine List.map_congr_left fun x hx => ?_
  have hx := List.mem_range.mp hx
  exact CImg.pixelAt_map φ c fill (by omega)

theorem col_map {α β : Type} (φ : α → β) (c : CImg α) (fill : α) (fill' : β) {x : Int}
    (hx : 0 ≤ x ∧ x < c.width) : (c.map φ).col fill' x = (c.col fill x).map φ := by
  simp only [CImg.col, List.map_map, CImg.height_map]
  refine List.map_congr_left fun y hy => ?_
  have hy := List.mem_range.mp hy
  exact CImg.pixelAt_map φ c fill (by omega)

section

variable {b : ℝ} {d : Nat}

theorem lineSum_real (l : List ℝ) : lineSum MathOps.real.toFloatOps l = l.sum := by
  have hzero : MathOps.real.ofNat 0 = 0 := Nat.cast_zero
  rw [lineSum, List.sum_eq_foldl, hzero]
  rfl

theorem average_shift {l : List ℝ} (hd : d ≠ 0) (hl : l.length = d) :
    average MathOps.real.toFloatOps d (l.map (brighten 1 b))
      = average MathOps.real.toFloatOps d l + b := by
  have hfun : brighten 1 b = fun p => p + b := by
    funext p
    rw [brighten, one_mul]
  have hsum : (l.map (brighten 1 b)).sum = l.sum + l.length * b := by
    simp [hfun, List.sum_map_add]
  have hne : (d : ℝ) ≠ 0 := by exact_mod_cast hd
  rw [average, average, lineSum_real, lineSum_real, hsum, hl]
  show (l.sum + d * b) / (d : ℝ) = l.sum / d + b
  field_simp

theorem deviation_shift {l : List ℝ} (hd : d ≠ 0) (hl : l.length = d) :
    deviation MathOps.real.toFloatOps d (l.map (brighten 1 b))
      = deviation MathOps.real.toFloatOps d l := by
  rw [deviation, deviation, average_shift hd hl, List.map_map]
  congr 2
  refine List.map_congr_left fun p _ => ?_
  simp only [Function.comp_apply, brighten, MathOps.real]
  ring

theorem busy_shift {lines lines' : Nat → List ℝ} {i : Nat} (hd : d ≠ 0)
    (hlen : ∀ j, (lines j).length = d)
    (hfirst : lines' 0 = (lines 0).map (brighten 1 b))
    (hline : lines' i = (lines i).map (brighten 1 b)) :
    busy MathOps.real.toFloatOps d lines' i = busy MathOps.real.toFloatOps d lines i := by
  have hdiff : avgDiff MathOps.real.toFloatOps
      (average MathOps.real.toFloatOps d (lines i) + b)
      (average MathOps.real.toFloatOps d (lines 0) + b)
      = avgDiff MathOps.real.toFloatOps (average MathOps.real.toFloatOps d (lines i))
        (average MathOps.real.toFloatOps d (lines 0)) := by
    have hsub : ∀ u v : ℝ, MathOps.real.sub (u + b) (v + b) = MathOps.real.sub u v := by
      intro u v
      simp [MathOps.real]
    simp only [avgDiff, hsub]
  rw [busy, busy, breaks, breaks, hfirst, hline, average_shift hd (hlen i),
    average_shift hd (hlen 0), deviation_shift hd (hlen i), hdiff]

/-- A border ends where it ended. -/
theorem border_shift {lines lines' : Nat → List ℝ} {n : Nat} (hd : d ≠ 0)
    (hlen : ∀ j, (lines j).length = d)
    (hlines : ∀ i < n, lines' i = (lines i).map (brighten 1 b)) :
    border MathOps.real.toFloatOps d lines' n = border MathOps.real.toFloatOps d lines n :=
  border_congr fun i hi => busy_shift hd hlen (hlines 0 (by omega)) (hlines i hi)

end

/-- The borders of a square picture do not depend on its brightness. -/
theorem content_shift (b : ℝ) (c : CImg ℝ) (hsquare : c.width = c.height) :
    content MathOps.real.toFloatOps c.width (c.map (brighten 1 b))
      = content MathOps.real.toFloatOps c.width c := by
  have hzero : MathOps.real.toFloatOps.ofNat 0 = 0 := Nat.cast_zero
  by_cases hd : c.width = 0
  · have hh : c.height = 0 := hsquare ▸ hd
    simp [content, border, stopAt, hd, hh]
  have hcol : ∀ x, (c.col 0 x).length = c.width := fun x => by rw [CImg.length_col, hsquare]
  have hrow : ∀ y, (c.row 0 y).length = c.width := CImg.length_row 0 c
  have hleft := border_shift hd (fun x => hcol x) fun x (hx : x < c.width) =>
    col_map (brighten 1 b) c 0 0 (by omega)
  have hright := border_shift hd (fun x => hcol (c.width - 1 - x)) fun x (hx : x < c.width) =>
    col_map (brighten 1 b) c 0 0 (by omega)
  have htop := border_shift hd (fun y => hrow y) fun y (hy : y < c.height) =>
    row_map (brighten 1 b) c 0 0 (by omega)
  have hbottom := border_shift hd (fun y => hrow (c.height - 1 - y)) fun y (hy : y < c.height) =>
    row_map (brighten 1 b) c 0 0 (by omega)
  simp only [content, hzero, CImg.width_map, CImg.height_map, hleft, hright, htop, hbottom]

/-! ## Other numbers -/

section

variable {α β : Type} {F : FloatOps α} {G : FloatOps β} {φ : α → β} {d : Nat}

theorem lineSum_hom (h : F.Hom G φ) (l : List α) : lineSum G (l.map φ) = φ (lineSum F l) := by
  rw [lineSum, lineSum, ← h.ofNat, List.foldl_map]
  exact List.foldl_hom φ fun sum p => (h.add sum p).symm

theorem average_hom (h : F.Hom G φ) (l : List α) :
    average G d (l.map φ) = φ (average F d l) := by
  rw [average, average, lineSum_hom h, h.divInt]

theorem deviation_hom (h : F.Hom G φ) (l : List α) :
    deviation G d (l.map φ) = φ (deviation F d l) := by
  rw [deviation, deviation, average_hom h, h.divInt, ← lineSum_hom h, List.map_map, List.map_map]
  congr 2
  refine List.map_congr_left fun p _ => ?_
  simp only [Function.comp_apply, h.square, h.sub]

theorem busy_hom (h : F.Hom G φ) {lines : Nat → List α} {lines' : Nat → List β} {i : Nat}
    (hfirst : lines' 0 = (lines 0).map φ) (hline : lines' i = (lines i).map φ) :
    busy G d lines' i = busy F d lines i := by
  have hdiff : ∀ avg lastAvg, avgDiff G (φ avg) (φ lastAvg) = φ (avgDiff F avg lastAvg) := by
    intro avg lastAvg
    simp only [avgDiff, ← h.sub, ← h.ofNat, ← h.lt, ← h.neg, apply_ite φ]
  simp only [busy, breaks, hfirst, hline, average_hom h, deviation_hom h, hdiff, h.sqrtGt, h.lt,
    h.ofNat]

theorem border_hom (h : F.Hom G φ) {lines : Nat → List α} {lines' : Nat → List β} {n : Nat}
    (hlines : ∀ i < n, lines' i = (lines i).map φ) : border G d lines' n = border F d lines n :=
  border_congr fun i hi => busy_hom h (hlines 0 (by omega)) (hlines i hi)

/-- The borders do not depend on which numbers the pixels are. -/
theorem findBorders_hom (h : F.Hom G φ) (img : CImg α) :
    findBorders G (img.map φ) = findBorders F img := by
  have hcol : ∀ x : Int, 0 ≤ x ∧ x < img.width →
      (img.map φ).col (G.ofNat 0) x = (img.col (F.ofNat 0) x).map φ :=
    fun x hx => col_map φ img _ _ hx
  have hrow : ∀ y : Int, 0 ≤ y ∧ y < img.height →
      (img.map φ).row (G.ofNat 0) y = (img.row (F.ofNat 0) y).map φ :=
    fun y hy => row_map φ img _ _ hy
  have hleft := border_hom h (d := img.width) fun x (hx : x < img.width) =>
    hcol x (by omega)
  have hright := border_hom h (d := img.width) fun x (hx : x < img.width) =>
    hcol (img.width - 1 - x) (by omega)
  have htop := border_hom h (d := img.width) fun y (hy : y < img.height) =>
    hrow y (by omega)
  have hbottom := border_hom h (d := img.width) fun y (hy : y < img.height) =>
    hrow (img.height - 1 - y) (by omega)
  simp only [findBorders_eq, content, CImg.width_map, CImg.height_map, hleft, hright, htop, hbottom]

end

/-! ## Layers -/

/-- `img'` shows what `img` does, with another contrast and on a background:
`f` is added to the columns and `g` to the rows. -/
structure Layered (a : ℝ) (f g : Int → ℝ) (img img' : CImg ℝ) : Prop where
  width : img'.width = img.width
  height : img'.height = img.height
  pixel : ∀ x y : Int, 0 ≤ x ∧ x < img.width → 0 ≤ y ∧ y < img.height →
    img'.pixelAt 0 x y = a * img.pixelAt 0 x y + (f x + g y)

/-- Whether the right half of a picture is brighter. -/
def rightBrighter {α : Type} (F : FloatOps α) (img : CImg α) : Option Bool :=
  (halfSums F img).map fun sums => F.lt sums.1 sums.2

theorem mirror_eq_rightBrighter {α : Type} (F : FloatOps α) (img : CImg α) :
    mirror F img = (rightBrighter F img).map fun right => if right then img.mirrorX else img := by
  rw [mirror, rightBrighter, Option.map_map]
  rfl

namespace Layered

variable {a : ℝ} {f g : Int → ℝ} {img img' : CImg ℝ}

/-- A brighter picture. -/
theorem of_map (a b : ℝ) (c : CImg ℝ) :
    Layered a (fun _ => 0) (fun _ => b) c (c.map (brighten a b)) := by
  refine ⟨rfl, rfl, fun x y hx hy => ?_⟩
  rw [CImg.pixelAt_map (brighten a b) c 0 ⟨hx.1, hx.2, hy⟩, brighten, zero_add]

theorem crop (h : Layered a f g img img') {x1 y1 x2 y2 : Int} (hx : 0 ≤ x1 ∧ x2 < img.width)
    (hy : 0 ≤ y1 ∧ y2 < img.height) :
    Layered a (fun x => f (x1 + x)) (fun y => g (y1 + y)) (img.crop 0 x1 y1 x2 y2)
      (img'.crop 0 x1 y1 x2 y2) := by
  refine ⟨rfl, rfl, fun x y hx' hy' => ?_⟩
  rw [CImg.width_crop] at hx'
  rw [CImg.height_crop] at hy'
  rw [CImg.pixelAt_crop 0 _ (by omega) (by omega), CImg.pixelAt_crop 0 _ (by omega) (by omega)]
  exact h.pixel _ _ (by omega) (by omega)

/-- What is kept between the borders. -/
theorem kept (h : Layered a f g img img') {b : Bounds}
    (hx : 0 ≤ b.x1 ∧ b.x2 ≤ img.width) (hy : 0 ≤ b.y1 ∧ b.y2 ≤ img.height) (hlarge : b.Large) :
    Layered a (fun x => f (b.shrink.x1 + x)) (fun y => g (b.shrink.y1 + y))
      (kept MathOps.real.toFloatOps b img) (kept MathOps.real.toFloatOps b img') := by
  have hnw : b.nw = b.x2 - b.x1 := rfl
  have hnh : b.nh = b.y2 - b.y1 := rfl
  obtain ⟨hw, hh⟩ := hlarge
  have hzero : MathOps.real.toFloatOps.ofNat 0 = 0 := Nat.cast_zero
  have hshrink := shrink_eq (b := b) (by omega) (by omega)
  rw [VideoMatch.Client.kept, VideoMatch.Client.kept, hzero]
  apply h.crop <;> rw [hshrink] <;> dsimp only <;> omega

theorem mirrorX (h : Layered a f g img img') :
    Layered a (fun x => f (img.width - 1 - x)) g img.mirrorX img'.mirrorX := by
  refine ⟨h.width, h.height, fun x y hx hy => ?_⟩
  rw [CImg.width_mirrorX] at hx
  rw [CImg.pixelAt_mirrorX, CImg.pixelAt_mirrorX, h.width]
  exact h.pixel _ _ (by omega) hy

/-- Rows of a background add the same to both halves. -/
theorem rightBrighter_rows (h : Layered a (fun _ => 0) g img img') (ha : 0 < a) :
    rightBrighter MathOps.real.toFloatOps img' = rightBrighter MathOps.real.toFloatOps img := by
  obtain ⟨sums, hsums⟩ : ∃ sums, sums = ∑ x ∈ Finset.range (img.width / 2),
      ∑ y ∈ Finset.range img.height,
        (img.pixelAt 0 x y, img.pixelAt 0 (img.width - 1 - x) y) := ⟨_, rfl⟩
  obtain ⟨k, hk⟩ : ∃ k, k = (img.width / 2 : Nat) * ∑ y ∈ Finset.range img.height, g y := ⟨_, rfl⟩
  have hpair : ∀ x ∈ Finset.range (img.width / 2), ∀ y ∈ Finset.range img.height,
      (img'.pixelAt 0 x y, img'.pixelAt 0 (img.width - 1 - x) y)
        = (a * img.pixelAt 0 x y + g y, a * img.pixelAt 0 (img.width - 1 - x) y + g y) := by
    intro x hx y hy
    have hx := Finset.mem_range.mp hx
    have hy := Finset.mem_range.mp hy
    rw [h.pixel x y (by omega) (by omega), h.pixel (img.width - 1 - x) y (by omega) (by omega),
      zero_add]
  have hsums' : ∑ x ∈ Finset.range (img.width / 2), ∑ y ∈ Finset.range img.height,
      (img'.pixelAt 0 x y, img'.pixelAt 0 (img.width - 1 - x) y)
      = (a * sums.1 + k, a * sums.2 + k) := by
    rw [Finset.sum_congr rfl fun x hx => Finset.sum_congr rfl (hpair x hx), hsums, hk]
    apply Prod.ext <;>
      simp [Prod.fst_sum, Prod.snd_sum, Finset.sum_add_distrib, Finset.mul_sum]
  rw [rightBrighter, rightBrighter, halfSums_real, halfSums_real, h.width, h.height, hsums',
    ← hsums, Option.map_some, Option.map_some]
  simp [MathOps.real, mul_lt_mul_iff_right₀ ha]

end Layered

/-! ## Filters -/

section

variable {S : Type} {L : PictureLibrary ℝ S}

theorem near_mem {n : Nat} (hn : 0 < n) (x : Int) : 0 ≤ near n x ∧ near n x < n := by
  rw [near]
  omega

/-- What the library does with `meanfilter`, and to shrink a picture. At the
border a pixel stands for those outside. `resize` copies pixels of the
picture; which columns and rows it takes depends on the sizes only. -/
structure Filters (L : PictureLibrary ℝ S) : Prop where
  width : ∀ img mask, (L.convolve img mask).width = img.width
  height : ∀ img mask, (L.convolve img mask).height = img.height
  convolve : ∀ img (x y : Int), 0 ≤ x ∧ x < img.width → 0 ≤ y ∧ y < img.height →
    (L.convolve img (meanfilter MathOps.real)).pixelAt 0 x y
      = ∑ i ∈ Finset.range 7, ∑ j ∈ Finset.range 7,
          img.pixelAt 0 (near img.width (x + i - 3)) (near img.height (y + j - 3))
  resize : ∃ taken : Nat → Nat → Int → Int,
    (∀ (n m : Nat) (x : Int), 0 < n → 0 ≤ x ∧ x < m → 0 ≤ taken n m x ∧ taken n m x < n) ∧
    ∀ img (w h : Nat) (x y : Int), 0 < img.width → 0 < img.height → 0 ≤ x ∧ x < w → 0 ≤ y ∧ y < h →
      (L.resize img w h).pixelAt 0 x y
        = img.pixelAt 0 (taken img.width w x) (taken img.height h y)

variable {a : ℝ} {f g : Int → ℝ} {m m' : CImg ℝ}

theorem Filters.layered_convolve (hfilters : Filters L) (h : Layered a f g m m') :
    ∃ f' g', Layered a f' g' (L.convolve m (meanfilter MathOps.real))
      (L.convolve m' (meanfilter MathOps.real)) := by
  refine ⟨fun x => ∑ i ∈ Finset.range 7, ∑ j ∈ Finset.range 7, f (near m.width (x + i - 3)),
    fun y => ∑ i ∈ Finset.range 7, ∑ j ∈ Finset.range 7, g (near m.height (y + j - 3)),
    by simp only [hfilters.width, h.width], by simp only [hfilters.height, h.height],
    fun x y hx hy => ?_⟩
  rw [hfilters.width] at hx
  rw [hfilters.height] at hy
  have hpixel : ∀ i j : Nat,
      m'.pixelAt 0 (near m.width (x + i - 3)) (near m.height (y + j - 3))
        = a * m.pixelAt 0 (near m.width (x + i - 3)) (near m.height (y + j - 3))
          + (f (near m.width (x + i - 3)) + g (near m.height (y + j - 3))) :=
    fun i j => h.pixel _ _ (near_mem (by omega) _) (near_mem (by omega) _)
  rw [hfilters.convolve m x y hx hy, hfilters.convolve m' x y (by rwa [h.width])
    (by rwa [h.height]), h.width, h.height]
  simp only [hpixel, Finset.sum_add_distrib, Finset.mul_sum]

theorem Filters.layered_resize (hfilters : Filters L) (hresize : Resizes L)
    (h : Layered a f g m m') (hw : 0 < m.width) (hh : 0 < m.height) (w h' : Nat) :
    ∃ f' g', Layered a f' g' (L.resize m w h') (L.resize m' w h') := by
  obtain ⟨taken, htaken, hpixel⟩ := hfilters.resize
  refine ⟨fun x => f (taken m.width w x), fun y => g (taken m.height h' y),
    by rw [(hresize m' w h').1, (hresize m w h').1],
    by rw [(hresize m' w h').2, (hresize m w h').2], fun x y hx hy => ?_⟩
  rw [(hresize m w h').1] at hx
  rw [(hresize m w h').2] at hy
  rw [hpixel m w h' x y hw hh hx hy,
    hpixel m' w h' x y (by rwa [h.width]) (by rwa [h.height]) hx hy, h.width, h.height]
  exact h.pixel _ _ (htaken _ _ _ hw hx) (htaken _ _ _ hh hy)

end

/-! ## Files of one channel -/

theorem filters_oneChannel (load : Bytes → Option (CImg ℝ)) : Filters (oneChannel load) where
  width _ _ := rfl
  height _ _ := rfl
  convolve img x y hx hy := by
    have hin : 0 ≤ x ∧ x < img.width ∧ 0 ≤ y ∧ y < img.height := ⟨hx.1, hx.2, hy⟩
    have hmask : ∀ i ∈ Finset.range 7, ∀ j ∈ Finset.range 7,
        (meanfilter MathOps.real).pixelAt 0 i j = 1 := by
      intro i hi j hj
      have hi := Finset.mem_range.mp hi
      have hj := Finset.mem_range.mp hj
      have hin : (0 : Int) ≤ i ∧ (i : Int) < 7 ∧ (0 : Int) ≤ j ∧ (j : Int) < 7 := by omega
      rw [CImg.pixelAt_of_mem 0 (meanfilter MathOps.real) hin]
      exact Nat.cast_one
    rw [CImg.pixelAt_of_mem 0 ((oneChannel load).convolve img (meanfilter MathOps.real)) hin]
    show (∑ i ∈ Finset.range 7, ∑ j ∈ Finset.range 7, (meanfilter MathOps.real).pixelAt 0 i j
      * img.pixelAt 0 (near img.width (x.toNat + i - 3)) (near img.height (y.toNat + j - 3))) = _
    refine Finset.sum_congr rfl fun i hi => Finset.sum_congr rfl fun j hj => ?_
    rw [hmask i hi j hj, one_mul, Int.toNat_of_nonneg hx.1, Int.toNat_of_nonneg hy.1]
  resize := by
    refine ⟨fun n m x => x * n / m, fun n m x hn hx => ?_, fun img w h x y hw hh hx hy => ?_⟩
    · refine ⟨Int.ediv_nonneg (mul_nonneg hx.1 (by omega)) (by omega), ?_⟩
      rw [Int.ediv_lt_iff_lt_mul (by omega), mul_comm]
      exact mul_lt_mul_of_pos_left hx.2 (by omega)
    · have hin : 0 ≤ x ∧ x < w ∧ 0 ≤ y ∧ y < h := ⟨hx.1, hx.2, hy⟩
      rw [CImg.pixelAt_of_mem 0 ((oneChannel load).resize img w h) hin]
      show img.pixelAt 0 (x.toNat * img.width / w) (y.toNat * img.height / h) = _
      rw [Int.toNat_of_nonneg hx.1, Int.toNat_of_nonneg hy.1]

/-- Squares like those of a chess board, and rows that become brighter. -/
def board (contrast slope : ℚ) : CImg ℚ :=
  ⟨32, 32, fun x y => contrast * ((x.val + y.val) % 2 : Nat) + slope * y.val⟩

noncomputable def realBoard (contrast slope : ℚ) : CImg ℝ := (board contrast slope).map (↑)

theorem width_realBoard (contrast slope : ℚ) : (realBoard contrast slope).width = 32 := rfl

theorem height_realBoard (contrast slope : ℚ) : (realBoard contrast slope).height = 32 := rfl

theorem pixelAt_realBoard (contrast slope : ℚ) {x y : Int} (hx : 0 ≤ x ∧ x < 32)
    (hy : 0 ≤ y ∧ y < 32) : (realBoard contrast slope).pixelAt 0 x y
      = contrast * ((x.toNat + y.toNat) % 2 : Nat) + slope * y.toNat := by
  have hin : 0 ≤ x ∧ x < (32 : Nat) ∧ 0 ≤ y ∧ y < (32 : Nat) := ⟨hx.1, hx.2, hy⟩
  rw [CImg.pixelAt_of_mem 0 (realBoard contrast slope) hin]
  simp [realBoard, board, CImg.map]

theorem layered_realBoard :
    Layered 2 (fun _ => 0) (fun y => y) (realBoard 100 0) (realBoard 200 1) := by
  refine ⟨(width_realBoard 200 1).trans (width_realBoard 100 0).symm,
    (height_realBoard 200 1).trans (height_realBoard 100 0).symm, fun x y hx hy => ?_⟩
  have hnat : ((y.toNat : Nat) : ℝ) = y := by exact_mod_cast Int.toNat_of_nonneg hy.1
  have htwice : ((200 : ℚ) : ℝ) = 2 * (100 : ℚ) := by norm_num
  rw [pixelAt_realBoard _ _ hx hy, pixelAt_realBoard _ _ hx hy, hnat, htwice, Rat.cast_one,
    Rat.cast_zero]
  ring

/-- Two files. -/
noncomputable def twoFiles (c c' : CImg ℝ) (filename : Bytes) : Option (CImg ℝ) :=
  if filename = ascii "1.jpg" then some c
  else if filename = ascii "2.jpg" then some c'
  else none

theorem load_twoFiles (c c' : CImg ℝ) :
    (oneChannel (twoFiles c c')).load (ascii "1.jpg") = some c ∧
    (oneChannel (twoFiles c c')).load (ascii "2.jpg") = some c' := by
  have hne : ascii "2.jpg" ≠ ascii "1.jpg" := by decide
  simp [oneChannel, twoFiles, hne]

/-! ## Hashes -/

section

variable {S : Type} {L : PictureLibrary ℝ S} {a : ℝ} {f g : Int → ℝ} {m m' : CImg ℝ}

/-- The hash of a picture that is ready for it. -/
theorem hashSmall_layered (hresize : Resizes L) (hfilters : Filters L) (h : Layered a f g m m')
    (ha : 0 < a) (hw : 0 < m.width) (hh : 0 < m.height) :
    hashSmall MathOps.real (L.resize (L.convolve m' (meanfilter MathOps.real)) 32 32)
      = hashSmall MathOps.real (L.resize (L.convolve m (meanfilter MathOps.real)) 32 32) := by
  obtain ⟨f₁, g₁, hconvolve⟩ := hfilters.layered_convolve h
  obtain ⟨f₂, g₂, hsmall⟩ := hfilters.layered_resize hresize hconvolve
    (by rwa [hfilters.width]) (by rwa [hfilters.height]) 32 32
  obtain ⟨hpw, hph⟩ := hresize (L.convolve m (meanfilter MathOps.real)) 32 32
  obtain ⟨hpw', hph'⟩ := hresize (L.convolve m' (meanfilter MathOps.real)) 32 32
  refine hashSmall_background hpw hph hpw' hph' ha (fun x => f₂ x) (fun y => g₂ y)
    fun x y hx hy => ?_
  exact hsmall.pixel x y (by omega) (by omega)

/-- The hash of a picture. -/
theorem hashPicture_layered (hresize : Resizes L) (hfilters : Filters L) {c c' : CImg ℝ}
    (ha : 0 < a) (h : Layered a f g c c')
    (hborders : findBorders MathOps.real.toFloatOps c' = findBorders MathOps.real.toFloatOps c)
    (hside : ∀ b, findBorders MathOps.real.toFloatOps c = some b → b.Large →
      rightBrighter MathOps.real.toFloatOps (kept MathOps.real.toFloatOps b c')
        = rightBrighter MathOps.real.toFloatOps (kept MathOps.real.toFloatOps b c)) :
    hashPicture MathOps.real L c' = hashPicture MathOps.real L c := by
  have hb := findBorders_eq MathOps.real.toFloatOps c
  generalize Bounds.mk _ _ _ _ = b at hb
  have hb' := hborders.trans hb
  by_cases hlarge : b.Large
  · obtain ⟨hx, hy⟩ := findBorders_within MathOps.real.toFloatOps hb
    obtain ⟨hxlt, hylt⟩ := hlarge.shrink_lt (by omega) (by omega)
    have hkept := h.kept (b := b) (by omega) (by omega) hlarge
    have hwidth : 0 < (kept MathOps.real.toFloatOps b c).width := by
      rw [kept, CImg.width_crop]
      omega
    have hheight : 0 < (kept MathOps.real.toFloatOps b c).height := by
      rw [kept, CImg.height_crop]
      omega
    rw [hashPicture_of_large hb hlarge, hashPicture_of_large hb' hlarge, mirror_eq_rightBrighter,
      mirror_eq_rightBrighter, hside b hb hlarge]
    cases rightBrighter MathOps.real.toFloatOps (kept MathOps.real.toFloatOps b c) with
    | none => rfl
    | some right =>
        simp only [Option.map_some, Option.bind_some]
        congr 1
        cases right with
        | false => exact hashSmall_layered hresize hfilters hkept ha hwidth hheight
        | true => exact hashSmall_layered hresize hfilters hkept.mirrorX ha hwidth hheight
  · rw [hashPicture_of_not_large hb hlarge, hashPicture_of_not_large hb' hlarge]

/-- The hash of a file. -/
theorem getHashCode_of_load {filename : Bytes} {src : S} (h : L.load filename = some src) :
    getHashCode MathOps.real L (some filename) = hashPicture MathOps.real L (luma L src) := by
  simp [getHashCode, h]

/-- Two files have the same hash if the luminances differ in the contrast
and in a background of columns and rows, provided that the same borders are
found and that what is kept is mirrored in both or in none of them. -/
theorem hash_ignores_background (hresize : Resizes L) (hfilters : Filters L)
    {filename filename' : Bytes} {src src' : S} (hload : L.load filename = some src)
    (hload' : L.load filename' = some src') (ha : 0 < a)
    (hluma : Layered a f g (luma L src) (luma L src'))
    (hborders : findBorders MathOps.real.toFloatOps (luma L src')
      = findBorders MathOps.real.toFloatOps (luma L src))
    (hside : ∀ b, findBorders MathOps.real.toFloatOps (luma L src) = some b → b.Large →
      rightBrighter MathOps.real.toFloatOps (kept MathOps.real.toFloatOps b (luma L src'))
        = rightBrighter MathOps.real.toFloatOps (kept MathOps.real.toFloatOps b (luma L src))) :
    getHashCode MathOps.real L (some filename') = getHashCode MathOps.real L (some filename) := by
  rw [getHashCode_of_load hload, getHashCode_of_load hload']
  exact hashPicture_layered hresize hfilters ha hluma hborders hside

theorem hash_ignores_background_boards :
    let L := oneChannel (twoFiles (realBoard 100 0) (realBoard 200 1))
    getHashCode MathOps.real L (some (ascii "2.jpg"))
      = getHashCode MathOps.real L (some (ascii "1.jpg")) := by
  intro L
  have hborders : findBorders MathOps.real.toFloatOps (realBoard 200 1)
      = findBorders MathOps.real.toFloatOps (realBoard 100 0) := by
    rw [realBoard, realBoard, findBorders_hom .cast, findBorders_hom .cast]
    simp only [findBorders_eq, Option.some.injEq, Bounds.mk.injEq]
    decide +kernel
  obtain ⟨hload, hload'⟩ := load_twoFiles (realBoard 100 0) (realBoard 200 1)
  refine hash_ignores_background (resizes_oneChannel _) (filters_oneChannel _) hload hload' two_pos
    layered_realBoard hborders fun b hb hlarge => ?_
  obtain ⟨hx, hy⟩ : (0 ≤ b.x1 ∧ b.x1 ≤ b.x2 ∧ b.x2 ≤ (realBoard 100 0).width) ∧
    0 ≤ b.y1 ∧ b.y1 ≤ b.y2 ∧ b.y2 ≤ (realBoard 100 0).height :=
    findBorders_within MathOps.real.toFloatOps hb
  exact (layered_realBoard.kept (by omega) (by omega) hlarge).rightBrighter_rows two_pos

/-- A picture with more contrast or another brightness has the same hash if
the same borders are found; and they are if the picture is square and only
its brightness is another one. -/
theorem brightness_ignored (hresize : Resizes L) (hfilters : Filters L)
    {filename filename' : Bytes} {src src' : S} (hload : L.load filename = some src)
    (hload' : L.load filename' = some src') {b : ℝ} (ha : 0 < a)
    (hluma : luma L src' = (luma L src).map (brighten a b))
    (hborders : a = 1 ∧ (luma L src).width = (luma L src).height ∨
      findBorders MathOps.real.toFloatOps (luma L src')
        = findBorders MathOps.real.toFloatOps (luma L src)) :
    getHashCode MathOps.real L (some filename') = getHashCode MathOps.real L (some filename) := by
  rw [getHashCode_of_load hload, getHashCode_of_load hload', hluma]
  rw [hluma] at hborders
  generalize luma L src = c at hborders ⊢
  have hlayered := Layered.of_map a b c
  have hsame : findBorders MathOps.real.toFloatOps (c.map (brighten a b))
      = findBorders MathOps.real.toFloatOps c := by
    rcases hborders with ⟨rfl, hsquare⟩ | hsame
    · simp only [findBorders_eq, CImg.width_map, CImg.height_map, content_shift b c hsquare]
    · exact hsame
  refine hashPicture_layered hresize hfilters ha hlayered hsame fun bounds hbounds hlarge => ?_
  obtain ⟨hx, hy⟩ := findBorders_within MathOps.real.toFloatOps hbounds
  exact (hlayered.kept (b := bounds) (by omega) (by omega) hlarge).rightBrighter_rows ha

theorem brightness_ignored_board :
    let L := oneChannel (twoFiles (realBoard 100 0) ((realBoard 100 0).map (brighten 1 40)))
    getHashCode MathOps.real L (some (ascii "2.jpg"))
      = getHashCode MathOps.real L (some (ascii "1.jpg")) := by
  intro L
  obtain ⟨hload, hload'⟩ := load_twoFiles (realBoard 100 0) ((realBoard 100 0).map (brighten 1 40))
  exact brightness_ignored (resizes_oneChannel _) (filters_oneChannel _) hload hload' one_pos rfl
    (.inl ⟨rfl, rfl⟩)

end

end VideoMatch.Client
