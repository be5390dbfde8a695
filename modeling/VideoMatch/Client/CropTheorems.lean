/-
VideoMatch.Client.CropTheorems — what `crop_border` finds and what it
keeps.

A scan stops at the first line that is not part of the border, or at the
last line of its half (`scan_eq`). Which lines these are is a property of
the picture; what lies between them is its `content`. The content is kept
if it is large enough, without a tenth of it on each side
(`cropBorder_eq`). That the rectangle is always valid
(`crop_rectangle_valid`) depends on none of the comparisons, so it holds
for every arithmetic of the pixels.
-/
import VideoMatch.Client.ImageProcessor

namespace VideoMatch.Client

open VideoMatch.Cxx

variable {α : Type} (F : FloatOps α)

/-! ## Lines -/

/-- The sum of the pixels of a line, in their order. -/
def lineSum (l : List α) : α := l.foldl F.add (F.ofNat 0)

def average (count : Nat) (l : List α) : α := F.divInt (lineSum F l) count

/-- The mean square deviation of a line from its average. -/
def deviation (count : Nat) (l : List α) : α :=
  F.divInt (lineSum F (l.map fun p => F.square (F.sub (average F count l) p))) count

/-- Line `i` is not part of a border. -/
def busy (count : Nat) (lines : Nat → List α) (i : Nat) : Bool :=
  breaks F i (average F count (lines i)) (deviation F count (lines i)) (average F count (lines 0))

theorem sumLine_eq {pixel : Nat → Option α} {l : List α} (h : ∀ i, pixel i = l[i]?) (f : α → α) :
    sumLine F l.length pixel f = some (lineSum F (l.map f)) := by
  have hfold : ∀ (l : List α) (sum : α),
      l.foldlM (fun sum p => some (F.add sum (f p))) sum = some ((l.map f).foldl F.add sum) := by
    intro l
    induction l with
    | nil => intro sum; rfl
    | cons p l ih => intro sum; exact ih _
  have hread : (fun (sum : α) i => (pixel i).map fun p => F.add sum (f p))
      = fun sum i => l[i]?.bind fun p => some (F.add sum (f p)) := by
    funext sum i
    rw [h i, Option.map_eq_bind]
    rfl
  rw [sumLine, hread, foldlM_range_getElem?, hfold, lineSum]

theorem measure_eq {pixel : Nat → Option α} {l : List α} (h : ∀ i, pixel i = l[i]?)
    (count : Nat) :
    measure F l.length count pixel = some (average F count l, deviation F count l) := by
  simp only [measure, sumLine_eq F h, List.map_id, Option.bind_eq_bind, Option.bind_some]
  rfl

/-! ## The scans -/

/-- Where the scan for a border stops. -/
def border (count : Nat) (lines : Nat → List α) (n : Nat) : Nat :=
  stopAt (busy F count lines) (n / 2)

/-- A scan over lines that are all in the picture. -/
theorem scan_eq {n len count : Nat} {pixel : Nat → Nat → Option α} {lines : Nat → List α}
    (hlen : ∀ i, (lines i).length = len) (hpixel : ∀ i < n / 2, ∀ j, pixel i j = (lines i)[j]?)
    (pos : Nat → Int) (lastAvg : α) :
    ∃ lastAvg', scan F n len count pixel pos (lastAvg, 0)
      = some (lastAvg', if n / 2 = 0 then 0 else pos (border F count lines n)) := by
  have hscan : scan F n len count pixel pos (lastAvg, 0)
      = some (if n / 2 = 0 then (lastAvg, 0)
        else (average F count (lines 0), pos (border F count lines n))) := by
    apply forBreak_range fun i => (average F count (lines 0), pos i)
    intro i hi t ht
    rw [← hlen i, measure_eq F (hpixel i hi)]
    simp only [Option.bind_eq_bind, Option.bind_some]
    by_cases h0 : i = 0
    · -- the average of the line before is not looked at
      subst h0
      simp only [busy, breaks, if_true, ne_eq, not_true_eq_false, decide_false, Bool.false_and,
        Bool.or_false]
    · rw [if_neg h0] at ht
      simp only [if_neg h0, ht, busy]
      rfl
  rw [hscan]
  split <;> exact ⟨_, rfl⟩

theorem border_lt (count : Nat) (lines : Nat → List α) {n : Nat} (hn : n / 2 ≠ 0) :
    border F count lines n < n / 2 := stopAt_lt _ (Nat.pos_of_ne_zero hn)

/-! ## The content -/

/-- What is left of a picture without its four borders, with `d` for the
number of pixels in a line. -/
def content (d : Nat) (img : CImg α) : Bounds where
  x1 := border F d (fun x => img.col (F.ofNat 0) x) img.width
  x2 := img.width - border F d (fun x => img.col (F.ofNat 0) (img.width - 1 - x)) img.width
  y1 := border F d (fun y => img.row (F.ofNat 0) y) img.height
  y2 := img.height - border F d (fun y => img.row (F.ofNat 0) (img.height - 1 - y)) img.height

/-- The borders lie in different halves of the picture. -/
theorem content_lt (d : Nat) (img : CImg α) :
    (img.width / 2 ≠ 0 → (content F d img).x1 < (content F d img).x2) ∧
    (img.height / 2 ≠ 0 → (content F d img).y1 < (content F d img).y2) := by
  constructor
  · intro hw
    have hleft := border_lt F d (fun x => img.col (F.ofNat 0) x) hw
    have hright := border_lt F d (fun x => img.col (F.ofNat 0) (img.width - 1 - x)) hw
    simp only [content]
    omega
  · intro hh
    have htop := border_lt F d (fun y => img.row (F.ofNat 0) y) hh
    have hbottom := border_lt F d (fun y => img.row (F.ofNat 0) (img.height - 1 - y)) hh
    simp only [content]
    omega

theorem content_within (d : Nat) (img : CImg α) :
    (0 ≤ (content F d img).x1 ∧ (content F d img).x2 ≤ img.width) ∧
    0 ≤ (content F d img).y1 ∧ (content F d img).y2 ≤ img.height := by
  simp only [content]
  omega

theorem scanTop_eq (img : CImg α) (lastAvg : α) : ∃ lastAvg', scanTop F img lastAvg
    = some (lastAvg', if img.height / 2 = 0 then 0 else (content F img.width img).y1) :=
  scan_eq F (fun _ => img.length_row _ _)
    (fun _ hy => img.data_eq_row (F.ofNat 0) (by omega)) (fun y => y) lastAvg

theorem scanBottom_eq (img : CImg α) (lastAvg : α) : ∃ lastAvg', scanBottom F img lastAvg
    = some (lastAvg', if img.height / 2 = 0 then 0 else (content F img.width img).y2) :=
  scan_eq F (fun _ => img.length_row _ _)
    (fun y hy x => by
      have hrow : ((img.height - 1 - y : Nat) : Int) = img.height - 1 - y := by omega
      rw [img.data_eq_row (F.ofNat 0) (by omega), hrow])
    (fun y => img.height - y) lastAvg

theorem scanLeft_eq (img : CImg α) (lastAvg : α) : ∃ lastAvg', scanLeft F img lastAvg
    = some (lastAvg', if img.width / 2 = 0 then 0 else (content F img.width img).x1) :=
  scan_eq F (fun _ => img.length_col _ _)
    (fun _ hx => img.data_eq_col (F.ofNat 0) (by omega)) (fun x => x) lastAvg

theorem scanRight_eq (img : CImg α) (lastAvg : α) : ∃ lastAvg', scanRight F img lastAvg
    = some (lastAvg', if img.width / 2 = 0 then 0 else (content F img.width img).x2) :=
  scan_eq F (fun _ => img.length_col _ _)
    (fun x hx y => by
      have hcol : ((img.width - 1 - x : Nat) : Int) = img.width - 1 - x := by omega
      rw [img.data_eq_col (F.ofNat 0) (by omega), hcol])
    (fun x => img.width - x) lastAvg

/-- A side of fewer than two lines is not scanned. The lines of the others
are measured by the width of the picture, columns like rows. -/
theorem findBorders_eq (img : CImg α) : findBorders F img = some
    { x1 := if img.width / 2 = 0 then 0 else (content F img.width img).x1
      x2 := if img.width / 2 = 0 then 0 else (content F img.width img).x2
      y1 := if img.height / 2 = 0 then 0 else (content F img.width img).y1
      y2 := if img.height / 2 = 0 then 0 else (content F img.width img).y2 } := by
  obtain ⟨avg₁, htop⟩ := scanTop_eq F img (F.ofNat 0)
  obtain ⟨avg₂, hbottom⟩ := scanBottom_eq F img avg₁
  obtain ⟨avg₃, hleft⟩ := scanLeft_eq F img avg₂
  obtain ⟨avg₄, hright⟩ := scanRight_eq F img avg₃
  simp only [findBorders, htop, hbottom, hleft, hright, Option.bind_eq_bind, Option.bind_some]

/-! ## A tenth on each side -/

/-- Truncation rounds down what is not negative. -/
theorem truncate_add_tenth {a n : Int} (h : 0 ≤ 10 * a + n) :
    truncate (a + n * (1 / 10)) = a + n / 10 := by
  have hfloor := Rat.floor_intCast_div_natCast n 10
  have hdiv : (n : ℚ) * (1 / 10) = n / (10 : Nat) := by
    push_cast
    ring
  have hnonneg : (0 : ℚ) ≤ a + n * (1 / 10) := by
    have hcast : (0 : ℚ) ≤ 10 * a + n := by exact_mod_cast h
    linarith
  rw [truncate, if_pos hnonneg, hdiv, Int.floor_intCast_add, hfloor]
  rfl

theorem truncate_sub_tenth {a n : Int} (h : n ≤ 10 * a) :
    truncate (a - n * (1 / 10)) = a + -n / 10 := by
  have hneg := truncate_add_tenth (a := a) (n := -n) (by omega)
  rwa [Int.cast_neg, neg_mul, ← sub_eq_add_neg] at hneg

/-- The first tenth is rounded down and the last one up. -/
theorem shrink_eq {b : Bounds} (hx : 0 ≤ b.x1 ∧ b.x1 ≤ b.x2) (hy : 0 ≤ b.y1 ∧ b.y1 ≤ b.y2) :
    b.shrink = ⟨b.x1 + b.nw / 10, b.x2 + -b.nw / 10, b.y1 + b.nh / 10, b.y2 + -b.nh / 10⟩ := by
  have hnw : b.nw = b.x2 - b.x1 := rfl
  have hnh : b.nh = b.y2 - b.y1 := rfl
  rw [Bounds.shrink, truncate_add_tenth (by omega), truncate_add_tenth (by omega),
    truncate_sub_tenth (by omega), truncate_sub_tenth (by omega)]

/-! ## The rectangle -/

/-- What the scans find lies in the picture. -/
theorem findBorders_within {img : CImg α} {b : Bounds} (h : findBorders F img = some b) :
    (0 ≤ b.x1 ∧ b.x1 ≤ b.x2 ∧ b.x2 ≤ img.width) ∧ 0 ≤ b.y1 ∧ b.y1 ≤ b.y2 ∧ b.y2 ≤ img.height := by
  have hlt := content_lt F img.width img
  have hwithin := content_within F img.width img
  rw [findBorders_eq, Option.some.injEq] at h
  subst h
  dsimp only
  constructor
  · split
    · omega
    · next hw => have := hlt.1 hw; omega
  · split
    · omega
    · next hh => have := hlt.2 hh; omega

/-- The content is large enough. -/
def Bounds.Large (b : Bounds) : Prop := 32 ≤ b.nw ∧ 32 ≤ b.nh

instance (b : Bounds) : Decidable b.Large := inferInstanceAs (Decidable (_ ∧ _))

/-- What is left of large content is not empty. -/
theorem Bounds.Large.shrink_lt {b : Bounds} (h : b.Large) (hx : 0 ≤ b.x1) (hy : 0 ≤ b.y1) :
    b.shrink.x1 < b.shrink.x2 ∧ b.shrink.y1 < b.shrink.y2 := by
  have hnw : b.nw = b.x2 - b.x1 := rfl
  have hnh : b.nh = b.y2 - b.y1 := rfl
  obtain ⟨hw, hh⟩ := h
  rw [shrink_eq (by omega) (by omega)]
  dsimp only
  omega

/-- The part of a picture that is kept of the content between `b`. -/
def kept (b : Bounds) (img : CImg α) : CImg α :=
  img.crop (F.ofNat 0) b.shrink.x1 b.shrink.y1 b.shrink.x2 b.shrink.y2

/-- `crop_border` with the content between `b`. -/
def cropWith (b : Bounds) (img : CImg α) : Int × CImg α :=
  if b.Large then (0, kept F b img) else (-1, img)

theorem cropWith_of_large {b : Bounds} (h : b.Large) (img : CImg α) :
    cropWith F b img = (0, kept F b img) := if_pos h

theorem cropWith_of_not_large {b : Bounds} (h : ¬ b.Large) (img : CImg α) :
    cropWith F b img = (-1, img) := if_neg h

/-- Cropping succeeds exactly if the content is large enough. -/
theorem cropWith_fst_eq_zero_iff (b : Bounds) (img : CImg α) :
    (cropWith F b img).1 = 0 ↔ b.Large := by
  by_cases h : b.Large
  · simp [cropWith_of_large F h, h]
  · simp [cropWith_of_not_large F h, h]

theorem cropBorder_eq (img : CImg α) :
    cropBorder F img = some (cropWith F (content F img.width img) img) := by
  have hwithin := content_within F img.width img
  have hlarge : ∀ b : Bounds, b.nh < 32 ∨ b.nw < 32 ↔ ¬ b.Large := by
    intro b
    unfold Bounds.Large
    omega
  rw [cropBorder, findBorders_eq]
  simp only [Option.bind_eq_bind, Option.bind_some, hlarge]
  by_cases hscan : img.width / 2 = 0 ∨ img.height / 2 = 0
  · -- such a picture is too small either way
    rw [if_pos, cropWith_of_not_large]
    · simp only [Bounds.Large, Bounds.nw, Bounds.nh]
      omega
    · simp only [Bounds.Large, Bounds.nw, Bounds.nh]
      split <;> split <;> omega
  · rw [not_or] at hscan
    simp only [if_neg hscan.1, if_neg hscan.2]
    rw [cropWith, apply_ite some, ite_not]
    rfl

/-- The rectangle that is kept is inside of the picture and not empty, and
on either axis it has at least 0.8 times the size of the content. Where
the content is too small, the picture stays as it is. -/
theorem crop_rectangle_valid (img : CImg α) : ∃ b, findBorders F img = some b ∧
    ((b.nh < 32 ∨ b.nw < 32) ∧ cropBorder F img = some (-1, img) ∨
      ((0 ≤ b.shrink.x1 ∧ b.shrink.x1 < b.shrink.x2 ∧ b.shrink.x2 < img.width) ∧
        (0 ≤ b.shrink.y1 ∧ b.shrink.y1 < b.shrink.y2 ∧ b.shrink.y2 < img.height) ∧
        8 / 10 * (b.nw : ℚ) ≤ (b.shrink.x2 - b.shrink.x1 + 1 : Int) ∧
        8 / 10 * (b.nh : ℚ) ≤ (b.shrink.y2 - b.shrink.y1 + 1 : Int)) ∧
      cropBorder F img = some (0, img.crop (F.ofNat 0) b.shrink.x1 b.shrink.y1 b.shrink.x2
        b.shrink.y2)) := by
  have hfind := findBorders_eq F img
  refine ⟨_, hfind, ?_⟩
  obtain ⟨hx, hy⟩ := findBorders_within F hfind
  rw [cropBorder, hfind]
  generalize (Bounds.mk _ _ _ _) = b at hx hy ⊢
  have hnw : b.nw = b.x2 - b.x1 := rfl
  have hnh : b.nh = b.y2 - b.y1 := rfl
  have hshrink := shrink_eq ⟨hx.1, hx.2.1⟩ ⟨hy.1, hy.2.1⟩
  have htenth : ∀ n m : Int, 8 * n ≤ 10 * m → 8 / 10 * (n : ℚ) ≤ m := by
    intro n m h
    have hcast : (8 : ℚ) * n ≤ 10 * m := by exact_mod_cast h
    linarith
  simp only [Option.bind_eq_bind, Option.bind_some]
  by_cases hsmall : b.nh < 32 ∨ b.nw < 32
  · exact .inl ⟨hsmall, if_pos hsmall⟩
  · refine .inr ⟨?_, if_neg hsmall⟩
    simp only [hshrink]
    refine ⟨by omega, by omega, htenth _ _ (by omega), htenth _ _ (by omega)⟩

end VideoMatch.Client
