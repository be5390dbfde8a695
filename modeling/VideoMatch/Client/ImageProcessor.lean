/-
VideoMatch.Client.ImageProcessor — how a picture is prepared for its hash.

`cropBorder` looks for borders: rows at the top and the bottom and columns
on the left and the right whose pixels hardly deviate from their average.
It cuts the borders off, and a tenth of what remains on each side.
`mirror` turns the darker half of a picture to the right.

The arithmetic of the pixels is the parameter `F`. The tenths are exact,
and a conversion to `int` truncates. `none` is an access outside of the
picture.
-/
import VideoMatch.Cxx.CImg
import VideoMatch.Cxx.Loops

namespace VideoMatch.Client

open VideoMatch.Cxx

variable {α : Type} (F : FloatOps α)

/-! ## One line -/

/-- The loop `sum += f(pixel)` over the pixels of a line. -/
def sumLine (len : Nat) (pixel : Nat → Option α) (f : α → α) : Option α :=
  (List.range len).foldlM (fun sum i => (pixel i).map fun p => F.add sum (f p)) (F.ofNat 0)

/-- `avg`, and `sum` before its square root is taken, for a line of `len`
pixels. -/
def measure (len count : Nat) (pixel : Nat → Option α) : Option (α × α) := do
  let sum ← sumLine F len pixel id
  let avg := F.divInt sum count
  let sum ← sumLine F len pixel fun p => F.square (F.sub avg p)
  some (avg, F.divInt sum count)

def SD_DIFF_THRESHOLD : Nat := 10
def AVG_DIFF_THRESHOLD : Nat := 255

/-- `avg_diff`. -/
def avgDiff (avg lastAvg : α) : α :=
  let diff := F.sub avg lastAvg
  if F.lt diff (F.ofNat 0) then F.neg diff else diff

/-- The test that ends a scan at line `i`. -/
def breaks (i : Nat) (avg sum lastAvg : α) : Bool :=
  F.sqrtGt sum (F.ofNat SD_DIFF_THRESHOLD)
    || (i ≠ 0 && F.lt (F.ofNat AVG_DIFF_THRESHOLD) (avgDiff F avg lastAvg))

/-! ## The four scans -/

/-- One of the four loops. It goes through the first half of `n` lines of
`len` pixels each and keeps `last_avg` and the border, which is `pos i`
after line `i`. -/
def scan (n len count : Nat) (pixel : Nat → Nat → Option α) (pos : Nat → Int)
    (st : α × Int) : Option (α × Int) :=
  forBreak (fun st i => do
    let (avg, sum) ← measure F len count (pixel i)
    let stop := breaks F i avg sum st.1
    let st := (if i = 0 then avg else st.1, pos i)
    some (if stop then .brk st else .next st)) (List.range (n / 2)) st

/-- The scan for `y1`. -/
def scanTop (img : CImg α) (lastAvg : α) : Option (α × Int) :=
  scan F img.height img.width img.width (fun y x => img.data x y) (fun y => y) (lastAvg, 0)

/-- The scan for `y2`. -/
def scanBottom (img : CImg α) (lastAvg : α) : Option (α × Int) :=
  scan F img.height img.width img.width (fun y x => img.data x (img.height - 1 - y))
    (fun y => img.height - y) (lastAvg, 0)

/-- The scan for `x1`. The columns are divided by the width, too. -/
def scanLeft (img : CImg α) (lastAvg : α) : Option (α × Int) :=
  scan F img.width img.height img.width (fun x y => img.data x y) (fun x => x) (lastAvg, 0)

/-- The scan for `x2`. The columns are divided by the width, too. -/
def scanRight (img : CImg α) (lastAvg : α) : Option (α × Int) :=
  scan F img.width img.height img.width (fun x y => img.data (img.width - 1 - x) y)
    (fun x => img.width - x) (lastAvg, 0)

/-! ## Cropping -/

structure Bounds where
  x1 : Int
  x2 : Int
  y1 : Int
  y2 : Int

/-- `nw` and `nh`. -/
def Bounds.nw (b : Bounds) : Int := b.x2 - b.x1
def Bounds.nh (b : Bounds) : Int := b.y2 - b.y1

/-- What the four scans find. -/
def findBorders (img : CImg α) : Option Bounds := do
  let (lastAvg, y1) ← scanTop F img (F.ofNat 0)
  let (lastAvg, y2) ← scanBottom F img lastAvg
  let (lastAvg, x1) ← scanLeft F img lastAvg
  let (_, x2) ← scanRight F img lastAvg
  some ⟨x1, x2, y1, y2⟩

/-- The conversion of a number to `int`. -/
def truncate (q : ℚ) : Int := if 0 ≤ q then ⌊q⌋ else ⌈q⌉

/-- `x1 += nw * 0.1; x2 -= nw * 0.1; y1 += nh * 0.1; y2 -= nh * 0.1`. -/
def Bounds.shrink (b : Bounds) : Bounds where
  x1 := truncate (b.x1 + b.nw * (1 / 10))
  x2 := truncate (b.x2 - b.nw * (1 / 10))
  y1 := truncate (b.y1 + b.nh * (1 / 10))
  y2 := truncate (b.y2 - b.nh * (1 / 10))

/-- `crop_border`: the value it returns and the picture. -/
def cropBorder (img : CImg α) : Option (Int × CImg α) := do
  let b ← findBorders F img
  if b.nh < 32 ∨ b.nw < 32 then
    some (-1, img)
  else
    let b := b.shrink
    some (0, img.crop (F.ofNat 0) b.x1 b.y1 b.x2 b.y2)

/-! ## Mirroring -/

/-- `suma` and `sumb`: the sums of the left and of the right half. -/
def halfSums (img : CImg α) : Option (α × α) :=
  (List.range (img.width / 2)).foldlM (fun sums x =>
    (List.range img.height).foldlM (fun sums y => do
      let a ← img.data x y
      let b ← img.data (img.width - 1 - x) y
      some (F.add sums.1 a, F.add sums.2 b)) sums) (F.ofNat 0, F.ofNat 0)

/-- `mirror`. -/
def mirror (img : CImg α) : Option (CImg α) :=
  (halfSums F img).map fun sums => if F.lt sums.1 sums.2 then img.mirrorX else img

/-- What `GetHashCode` does with a picture before it computes the hash;
the inner `none` is its early return. -/
def cropAndMirror (img : CImg α) : Option (Option (CImg α)) := do
  let (ret, img) ← cropBorder F img
  if ret < 0 then some none else (mirror F img).map some

end VideoMatch.Client
