/-
VideoMatch.Client.ImageHash — the hash of a picture.

`GetHashCode` reduces a picture to its luminance, prepares it
(`cropAndMirror`), blurs it, shrinks it to 32 by 32 pixels and transforms it
by cosines. Bit `i` of the hash says whether coefficient `i` of the 64 low
ones, without the first row and the first column, is above their median.

The arithmetic is the parameter `M`. The picture library is there as far as
pictures of one channel go; what it does with files and channels, the
convolution and `resize` are the parameter `L`.
-/
import VideoMatch.Client.ImageProcessor
import VideoMatch.Client.Main
import VideoMatch.Cxx.Matrix
import VideoMatch.Cxx.Words

namespace VideoMatch.Client

open VideoMatch.Cxx

/-- The picture library, for loaded pictures of type `S`. -/
structure PictureLibrary (α S : Type) where
  /-- `load`; a `CImgIOException` is `none` -/
  load : Bytes → Option S
  spectrum : S → Nat
  /-- `RGBtoYCbCr().channel(0)` -/
  luminance : S → CImg α
  /-- `channel(0)` -/
  channel0 : S → CImg α
  /-- `crop(0, 0, 0, 0, x1, y1, z1, 2)` -/
  cropTo : S → Int → Int → Int → S
  /-- `get_convolve` -/
  convolve : CImg α → CImg α → CImg α
  resize : CImg α → Nat → Nat → CImg α

variable {α S : Type} (M : MathOps α) (L : PictureLibrary α S)

/-- `ph_dct_matrix`. -/
def phDctMatrix (n : Nat) : CImg α where
  width := n
  height := n
  pixel x y :=
    if y.val < 1 then M.div (M.ofNat 1) (M.sqrt (M.ofNat n))
    else
      let c1 := M.sqrt (M.div (M.ofNat 2) (M.ofNat n))
      M.mul c1 (M.cos (M.mul (M.mul (M.div (M.div M.pi (M.ofNat 2)) (M.ofNat n)) (M.ofNat y))
        (M.ofNat (2 * x + 1))))

def meanfilter : CImg α := ⟨7, 7, fun _ _ => M.ofNat 1⟩

/-- The loop over the bits; the state is `result` and `one`. -/
def hashBits (subsec : List α) (med : α) : UInt64 :=
  ((List.range 64).foldl (fun (st : UInt64 × UInt64) i =>
    let current := subsec.getD i (M.ofNat 0)
    (if M.lt med current then st.1 ||| st.2 else st.1, st.2 <<< 1)) (0, 1)).1

/-- `GetHashCode` for the small picture. -/
def hashSmall (img : CImg α) : Option UInt64 := do
  let c := phDctMatrix M 32
  let rows ← c.product M img
  let dctImage ← rows.product M c.transpose
  let subsec := (dctImage.crop (M.ofNat 0) 1 1 8 8).unroll (M.ofNat 0)
  some (hashBits M subsec (median M.toFloatOps subsec))

/-- `c0`, before it is cropped. The picture `img`, whose size is asked for
to crop a picture of four channels, is still empty. -/
def luma (src : S) : CImg α :=
  let img : CImg α := ⟨0, 0, fun x => x.elim0⟩
  if L.spectrum src = 3 then L.luminance src
  else if L.spectrum src = 4 then
    L.luminance (L.cropTo src (img.width - 1) (img.height - 1) (0 - 1))
  else L.channel0 src

/-- The rest of `GetHashCode`, from `c0` on: the value it returns and
`result`. -/
def hashPicture (c0 : CImg α) : Option (Int × UInt64) := do
  match ← cropAndMirror M.toFloatOps c0 with
  | none => some (0, 0)
  | some c0 =>
      let result ← hashSmall M (L.resize (L.convolve c0 (meanfilter M)) 32 32)
      some (0, result)

/-- `GetHashCode`. A file name that is no pointer is `none`. -/
def getHashCode (filename : Option Bytes) : Option (Int × UInt64) :=
  match filename with
  | none => some (-1, 0)
  | some filename =>
      match L.load filename with
      | none => some (-1, 0)
      | some src => hashPicture M L (luma L src)

/-- The files as the client sees them. A fault would end it. -/
def pictures (scandir : Bytes → Option (List Bytes)) : Pictures where
  scandir := scandir
  getHashCode filename := (getHashCode M L (some filename)).bind fun r =>
    if r.1 < 0 then none else some r.2

end VideoMatch.Client
