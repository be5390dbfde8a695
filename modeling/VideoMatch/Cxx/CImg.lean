/-
VideoMatch.Cxx.CImg — pictures, and the arithmetic of their pixels.

A `CImg α` has one channel and one slice. `data x y` is the pixel in
column `x` and row `y`, a fault outside of the picture. `crop` keeps the
columns and rows between two corners, both inclusive, and fills up what
lies outside of the picture. Pictures are equal if they have the same size
and the same pixels (`ext_pixelAt`).

What floating-point numbers the pixels are is open: the operations are a
parameter, `FloatOps`. `exact` are the operations on rational numbers. A
rational number has no square root among them, so two numbers are compared
by their squares instead (`exact_sqrtGt`).
-/
import Mathlib

namespace VideoMatch.Cxx

/-! ## Arithmetic -/

/-- The operations on `float` that the code uses. -/
structure FloatOps (α : Type*) where
  ofNat : Nat → α
  add : α → α → α
  sub : α → α → α
  neg : α → α
  /-- `pow(a, 2)` -/
  square : α → α
  /-- `a / n` for an `int` -/
  divInt : α → Nat → α
  /-- `a < b` -/
  lt : α → α → Bool
  /-- `sqrt(a) > b` -/
  sqrtGt : α → α → Bool

/-- Rational numbers, without rounding. -/
def FloatOps.exact : FloatOps ℚ where
  ofNat n := n
  add a b := a + b
  sub a b := a - b
  neg a := -a
  square a := a ^ 2
  divInt a n := a / n
  lt a b := a < b
  sqrtGt a b := b ^ 2 < a

/-- Where square roots are compared, they are compared as real numbers. -/
theorem FloatOps.exact_sqrtGt {a b : ℚ} (hb : 0 ≤ b) :
    FloatOps.exact.sqrtGt a b = true ↔ (b : ℝ) < Real.sqrt a := by
  have hb' : (0 : ℝ) ≤ b := by exact_mod_cast hb
  rw [Real.lt_sqrt hb', ← Rat.cast_pow, Rat.cast_lt]
  exact decide_eq_true_iff

/-! ## Pictures -/

structure CImg (α : Type*) where
  width : Nat
  height : Nat
  pixel : Fin width → Fin height → α

namespace CImg

variable {α : Type*}

/-- `*(img.data(x, y))`. -/
def data (img : CImg α) (x y : Nat) : Option α :=
  if h : x < img.width ∧ y < img.height then some (img.pixel ⟨x, h.1⟩ ⟨y, h.2⟩) else none

/-- The pixel at any place; outside of the picture it is `fill`. -/
def pixelAt (fill : α) (img : CImg α) (x y : Int) : α :=
  if h : 0 ≤ x ∧ x < img.width ∧ 0 ≤ y ∧ y < img.height then
    img.pixel ⟨x.toNat, by omega⟩ ⟨y.toNat, by omega⟩
  else fill

/-- `crop(x1, y1, 0, x2, y2, 0)`. -/
def crop (fill : α) (img : CImg α) (x1 y1 x2 y2 : Int) : CImg α where
  width := (x2 - x1 + 1).toNat
  height := (y2 - y1 + 1).toNat
  pixel i j := img.pixelAt fill (x1 + i) (y1 + j)

/-- `mirror('x')`. -/
def mirrorX (img : CImg α) : CImg α where
  width := img.width
  height := img.height
  pixel i j := img.pixel i.rev j

/-- The picture with rows and columns exchanged. -/
def transpose (img : CImg α) : CImg α where
  width := img.height
  height := img.width
  pixel i j := img.pixel j i

@[simp] theorem width_crop (fill : α) (img : CImg α) (x1 y1 x2 y2 : Int) :
    (img.crop fill x1 y1 x2 y2).width = (x2 - x1 + 1).toNat := rfl

@[simp] theorem height_crop (fill : α) (img : CImg α) (x1 y1 x2 y2 : Int) :
    (img.crop fill x1 y1 x2 y2).height = (y2 - y1 + 1).toNat := rfl

@[simp] theorem width_mirrorX (img : CImg α) : img.mirrorX.width = img.width := rfl

@[simp] theorem height_mirrorX (img : CImg α) : img.mirrorX.height = img.height := rfl

@[simp] theorem width_transpose (img : CImg α) : img.transpose.width = img.height := rfl

@[simp] theorem height_transpose (img : CImg α) : img.transpose.height = img.width := rfl

variable (fill : α)

theorem pixelAt_of_mem (img : CImg α) {x y : Int}
    (h : 0 ≤ x ∧ x < img.width ∧ 0 ≤ y ∧ y < img.height) :
    img.pixelAt fill x y = img.pixel ⟨x.toNat, by omega⟩ ⟨y.toNat, by omega⟩ := dif_pos h

theorem pixelAt_of_not_mem (img : CImg α) {x y : Int}
    (h : ¬ (0 ≤ x ∧ x < img.width ∧ 0 ≤ y ∧ y < img.height)) : img.pixelAt fill x y = fill :=
  dif_neg h

theorem data_eq (img : CImg α) {x y : Nat} (hx : x < img.width) (hy : y < img.height) :
    img.data x y = some (img.pixelAt fill x y) := by
  rw [data, dif_pos ⟨hx, hy⟩, pixelAt_of_mem fill img (by omega)]
  rfl

/-- Pictures of one size with the same pixels are equal. -/
theorem ext_pixelAt {a b : CImg α} (hw : a.width = b.width) (hh : a.height = b.height)
    (h : ∀ x y : Nat, x < a.width → y < a.height → a.pixelAt fill x y = b.pixelAt fill x y) :
    a = b := by
  obtain ⟨w, ht, p⟩ := a
  obtain ⟨w', ht', q⟩ := b
  obtain rfl : w = w' := hw
  obtain rfl : ht = ht' := hh
  congr
  funext i j
  have hpixel := h i j i.isLt j.isLt
  simpa [pixelAt] using hpixel

theorem pixelAt_mirrorX (img : CImg α) (x y : Int) :
    img.mirrorX.pixelAt fill x y = img.pixelAt fill (img.width - 1 - x) y := by
  by_cases h : 0 ≤ x ∧ x < img.width ∧ 0 ≤ y ∧ y < img.height
  · rw [pixelAt_of_mem fill img.mirrorX h, pixelAt_of_mem fill img (by omega)]
    simp only [mirrorX, Fin.rev]
    congr 2
    omega
  · rw [pixelAt_of_not_mem fill img.mirrorX h, pixelAt_of_not_mem fill img (by omega)]

theorem pixelAt_transpose (img : CImg α) (x y : Int) :
    img.transpose.pixelAt fill x y = img.pixelAt fill y x := by
  by_cases h : 0 ≤ x ∧ x < img.height ∧ 0 ≤ y ∧ y < img.width
  · rw [pixelAt_of_mem fill img.transpose h, pixelAt_of_mem fill img (by omega)]
    rfl
  · rw [pixelAt_of_not_mem fill img.transpose h, pixelAt_of_not_mem fill img (by omega)]

theorem pixelAt_crop (img : CImg α) {x1 y1 x2 y2 x y : Int} (hx : 0 ≤ x ∧ x1 + x ≤ x2)
    (hy : 0 ≤ y ∧ y1 + y ≤ y2) :
    (img.crop fill x1 y1 x2 y2).pixelAt fill x y = img.pixelAt fill (x1 + x) (y1 + y) := by
  rw [pixelAt_of_mem fill _ (by simp; omega)]
  simp only [crop, Int.toNat_of_nonneg hx.1, Int.toNat_of_nonneg hy.1]

theorem mirrorX_mirrorX (img : CImg α) : img.mirrorX.mirrorX = img := by
  simp [mirrorX, Fin.rev_rev]

/-- The mirror image of a part is a part of the mirror image. -/
theorem mirrorX_crop (img : CImg α) (x1 y1 x2 y2 : Int) :
    (img.crop fill x1 y1 x2 y2).mirrorX
      = img.mirrorX.crop fill (img.width - 1 - x2) y1 (img.width - 1 - x1) y2 := by
  have hwidth : (img.width - 1 - x1) - (img.width - 1 - x2) + 1 = x2 - x1 + 1 := by omega
  apply ext_pixelAt fill
  · rw [width_mirrorX, width_crop, width_crop, hwidth]
  · rfl
  · intro x y hx hy
    rw [width_mirrorX, width_crop] at hx
    rw [height_mirrorX, height_crop] at hy
    rw [pixelAt_mirrorX, width_crop, pixelAt_crop fill img (by omega) (by omega),
      pixelAt_crop fill _ (by omega) (by omega), pixelAt_mirrorX]
    congr 1
    omega

theorem transpose_crop (img : CImg α) (x1 y1 x2 y2 : Int) :
    (img.crop fill x1 y1 x2 y2).transpose = img.transpose.crop fill y1 x1 y2 x2 := by
  refine ext_pixelAt fill rfl rfl fun x y hx hy => ?_
  rw [width_transpose, height_crop] at hx
  rw [height_transpose, width_crop] at hy
  rw [pixelAt_transpose, pixelAt_crop fill img (by omega) (by omega),
    pixelAt_crop fill _ (by omega) (by omega), pixelAt_transpose]

/-- Parts of one size are equal if they show the same pixels. -/
theorem crop_eq_crop_iff (a b : CImg α) {x1 y1 x2 y2 x1' y1' x2' y2' : Int}
    (hw : x2 - x1 = x2' - x1') (hh : y2 - y1 = y2' - y1') :
    a.crop fill x1 y1 x2 y2 = b.crop fill x1' y1' x2' y2' ↔
      ∀ i j : Int, 0 ≤ i → x1 + i ≤ x2 → 0 ≤ j → y1 + j ≤ y2 →
        a.pixelAt fill (x1 + i) (y1 + j) = b.pixelAt fill (x1' + i) (y1' + j) := by
  constructor
  · intro h i j hi hi' hj hj'
    have hpixel := congrArg (fun img : CImg α => img.pixelAt fill i j) h
    rwa [pixelAt_crop fill a (by omega) (by omega), pixelAt_crop fill b (by omega) (by omega)]
      at hpixel
  · intro h
    apply ext_pixelAt fill
    · rw [width_crop, width_crop, hw]
    · rw [height_crop, height_crop, hh]
    · intro x y hx hy
      rw [width_crop] at hx
      rw [height_crop] at hy
      rw [pixelAt_crop fill a (by omega) (by omega), pixelAt_crop fill b (by omega) (by omega)]
      exact h x y (by omega) (by omega) (by omega) (by omega)

/-! ## Parts next to each other -/

/-- A part is the mirror image of the part one column to the left exactly
if both together are their own mirror image. -/
theorem mirrorX_crop_pred_eq_iff (img : CImg α) {x1 x2 : Int} (y1 y2 : Int) (hx : x1 ≤ x2) :
    (img.crop fill (x1 - 1) y1 (x2 - 1) y2).mirrorX = img.crop fill x1 y1 x2 y2 ↔
      (img.crop fill (x1 - 1) y1 x2 y2).mirrorX = img.crop fill (x1 - 1) y1 x2 y2 := by
  rw [mirrorX_crop, mirrorX_crop, crop_eq_crop_iff fill _ _ (by omega) rfl,
    crop_eq_crop_iff fill _ _ (by omega) rfl]
  simp only [pixelAt_mirrorX]
  constructor
  · intro h i j hi hi' hj hj'
    have hleft : (img.width : Int) - 1 - (img.width - 1 - x2 + i) = x2 - i := by omega
    rw [hleft]
    by_cases h0 : i = 0
    · -- the first column is the last one of the other equation
      have hlast := h (x2 - x1) j (by omega) (by omega) hj hj'
      rw [show (img.width : Int) - 1 - (img.width - 1 - (x2 - 1) + (x2 - x1)) = x1 - 1 by omega,
        show x1 + (x2 - x1) = x2 by omega] at hlast
      rw [h0, Int.sub_zero, Int.add_zero, hlast]
    · have hnext := h (i - 1) j (by omega) (by omega) hj hj'
      rwa [show (img.width : Int) - 1 - (img.width - 1 - (x2 - 1) + (i - 1)) = x2 - i by omega,
        show x1 + (i - 1) = x1 - 1 + i by omega] at hnext
  · intro h i j hi hi' hj hj'
    have hnext := h (i + 1) j (by omega) (by omega) hj hj'
    rwa [show (img.width : Int) - 1 - (img.width - 1 - x2 + (i + 1))
        = img.width - 1 - (img.width - 1 - (x2 - 1) + i) by omega,
      show x1 - 1 + (i + 1) = x1 + i by omega] at hnext

/-- A part that is the same as the part one column to the left has equal
columns. -/
theorem mirrorX_crop_of_pred_eq (img : CImg α) {x1 x2 y1 y2 : Int}
    (h : img.crop fill (x1 - 1) y1 (x2 - 1) y2 = img.crop fill x1 y1 x2 y2) :
    (img.crop fill x1 y1 x2 y2).mirrorX = img.crop fill x1 y1 x2 y2 := by
  rw [crop_eq_crop_iff fill _ _ (by omega) rfl] at h
  have hfirst : ∀ n : Nat, x1 + n ≤ x2 → ∀ j : Int, 0 ≤ j → y1 + j ≤ y2 →
      img.pixelAt fill (x1 + n) (y1 + j) = img.pixelAt fill x1 (y1 + j) := by
    intro n
    induction n with
    | zero => intro _ j _ _; rw [Int.natCast_zero, Int.add_zero]
    | succ n ih =>
        intro hn j hj hj'
        have hstep := h (n + 1) j (by omega) (by omega) hj hj'
        rw [show x1 - 1 + ((n : Int) + 1) = x1 + n by omega] at hstep
        rw [← ih (by omega) j hj hj', hstep]
        rfl
  rw [mirrorX_crop, crop_eq_crop_iff fill _ _ (by omega) rfl]
  intro i j hi hi' hj hj'
  have hleft := hfirst (x2 - x1 - i).toNat (by omega) j hj hj'
  have hright := hfirst i.toNat (by omega) j hj hj'
  rw [Int.toNat_of_nonneg (by omega)] at hleft hright
  rw [pixelAt_mirrorX, hright, ← hleft]
  congr 1
  omega

/-! ## Lines -/

/-- Row `y` and column `x`, from the top left corner on. -/
def row (img : CImg α) (y : Int) : List α :=
  (List.range img.width).map fun x : Nat => img.pixelAt fill x y

def col (img : CImg α) (x : Int) : List α :=
  (List.range img.height).map fun y : Nat => img.pixelAt fill x y

@[simp] theorem length_row (img : CImg α) (y : Int) : (img.row fill y).length = img.width := by
  simp [row]

@[simp] theorem length_col (img : CImg α) (x : Int) : (img.col fill x).length = img.height := by
  simp [col]

theorem data_eq_row (img : CImg α) {y : Nat} (hy : y < img.height) (x : Nat) :
    img.data x y = (img.row fill y)[x]? := by
  by_cases hx : x < img.width
  · rw [data_eq fill img hx hy, row, List.getElem?_map, List.getElem?_range hx, Option.map_some]
  · rw [data, dif_neg fun h => hx h.1, List.getElem?_eq_none (by simpa using hx)]

theorem data_eq_col (img : CImg α) {x : Nat} (hx : x < img.width) (y : Nat) :
    img.data x y = (img.col fill x)[y]? := by
  by_cases hy : y < img.height
  · rw [data_eq fill img hx hy, col, List.getElem?_map, List.getElem?_range hy, Option.map_some]
  · rw [data, dif_neg fun h => hy h.2, List.getElem?_eq_none (by simpa using hy)]

theorem row_transpose (img : CImg α) (y : Int) : img.transpose.row fill y = img.col fill y := by
  simp only [row, col, width_transpose, pixelAt_transpose]

theorem col_transpose (img : CImg α) (x : Int) : img.transpose.col fill x = img.row fill x := by
  simp only [row, col, height_transpose, pixelAt_transpose]

theorem col_mirrorX (img : CImg α) (x : Int) :
    img.mirrorX.col fill x = img.col fill (img.width - 1 - x) := by
  simp only [col, height_mirrorX, pixelAt_mirrorX]

theorem row_mirrorX (img : CImg α) (y : Int) :
    img.mirrorX.row fill y = (img.row fill y).reverse := by
  apply List.ext_getElem
  · simp [row]
  · intro i h₁ h₂
    simp only [row, List.length_map, List.length_range, width_mirrorX] at h₁
    simp only [row, List.getElem_reverse, List.getElem_map, List.getElem_range, List.length_map,
      List.length_range, pixelAt_mirrorX]
    congr 1
    omega

end CImg

end VideoMatch.Cxx
