/-
VideoMatch.Client.HashTheorems — what the hash of a picture sees.

Bit `i` of a hash is a comparison of coefficient `i` with the median of the
coefficients (`testBit_hashBits`). So at most half of the bits are set, and
a larger contrast changes nothing. The weights of the 64 coefficients have
the sum 0 along either axis (`sum_weight`), so a background that is the same
along the rows or along the columns is not seen either
(`hashSmall_background`).

Pixels are real numbers here.
-/
import VideoMatch.Client.CropTheorems
import VideoMatch.Client.ImageHash
import VideoMatch.Cxx.Bits
import VideoMatch.Machine.Cosine

namespace VideoMatch.Client

open VideoMatch.Cxx VideoMatch.Machine

/-! ## Bits -/

section

variable {α : Type} (M : MathOps α)

/-- Setting one bit after the other. -/
theorem foldl_bits (f : Nat → Bool) : ∀ {n : Nat}, n ≤ 64 →
    ((List.range n).foldl (fun (st : UInt64 × UInt64) i =>
        (if f i then st.1 ||| st.2 else st.1, st.2 <<< 1)) (0, 1)).2.toNat = 2 ^ n % 2 ^ 64 ∧
      ∀ i, ((List.range n).foldl (fun (st : UInt64 × UInt64) i =>
        (if f i then st.1 ||| st.2 else st.1, st.2 <<< 1)) (0, 1)).1.toNat.testBit i
          = (decide (i < n) && f i) := by
  intro n
  induction n with
  | zero => intro _; exact ⟨rfl, fun i => by simp⟩
  | succ n ih =>
      intro hn
      obtain ⟨hone, hbits⟩ := ih (by omega)
      rw [List.range_succ, List.foldl_append, List.foldl_cons, List.foldl_nil]
      generalize (List.range n).foldl _ _ = st at hone hbits ⊢
      rw [Nat.mod_eq_of_lt (Nat.pow_lt_pow_right (by decide) (by omega))] at hone
      refine ⟨?_, fun i => ?_⟩
      · rw [UInt64.toNat_shiftLeft, hone]
        simp [Nat.shiftLeft_eq, Nat.pow_succ]
      · have hnew : (st.1 ||| st.2).toNat.testBit i = (st.1.toNat.testBit i || decide (n = i)) := by
          rw [UInt64.toNat_or, Nat.testBit_or, hone, Nat.testBit_two_pow]
        by_cases hf : f n = true
        · simp only [hf, if_true, hnew, hbits]
          by_cases hi : n = i
          · subst hi; simp [hf]
          · have hlt : i < n + 1 ↔ i < n := by omega
            simp [hi, hlt]
        · simp only [hf, if_false, Bool.false_eq_true, hbits]
          by_cases hi : n = i
          · subst hi; simp [hf]
          · have hlt : i < n + 1 ↔ i < n := by omega
            simp [hlt]

theorem testBit_hashBits (subsec : List α) (med : α) {i : Nat} (hi : i < 64) :
    (hashBits M subsec med).toNat.testBit i = M.lt med (subsec.getD i (M.ofNat 0)) := by
  have hbits := (foldl_bits (fun i => M.lt med (subsec.getD i (M.ofNat 0))) (le_refl 64)).2 i
  rw [decide_eq_true hi, Bool.true_and] at hbits
  exact hbits

/-- Hashes with the same comparisons are the same. -/
theorem hashBits_congr {l l' : List α} {med med' : α}
    (h : ∀ i < 64, M.lt med (l.getD i (M.ofNat 0)) = M.lt med' (l'.getD i (M.ofNat 0))) :
    hashBits M l med = hashBits M l' med' := by
  apply wordBits_injective
  funext i
  rw [wordBits, wordBits, testBit_hashBits M _ _ i.isLt, testBit_hashBits M _ _ i.isLt]
  exact h i i.isLt

/-- The bits that are set are the values above the median. -/
theorem ones_hashBits {subsec : List α} (hlen : subsec.length = 64) (med : α) :
    ones 64 (hashBits M subsec med).toNat = subsec.countP fun x => M.lt med x := by
  have hsum : ∀ (f : Nat → Bool) (n : Nat),
      ∑ i ∈ Finset.range n, (f i).toNat = (List.range n).countP f := by
    intro f n
    induction n with
    | zero => rfl
    | succ n ih =>
        rw [Finset.sum_range_succ, ih, List.range_succ, List.countP_append, List.countP_singleton]
        cases f n <;> rfl
  have hlist : subsec = (List.range 64).map fun i => subsec.getD i (M.ofNat 0) := by
    apply List.ext_getElem
    · simp [hlen]
    · intro i h₁ h₂
      simp [h₁]
  rw [ones, Finset.sum_congr rfl fun i hi => by
    rw [testBit_hashBits M subsec med (Finset.mem_range.mp hi)], hsum]
  conv_rhs => rw [hlist, List.countP_map]
  rfl

end

/-! ## Coefficients -/

theorem foldl_add_range (f : Nat → ℝ) (n : Nat) :
    (List.range n).foldl (fun sum k => sum + f k) 0 = ∑ k ∈ Finset.range n, f k := by
  induction n with
  | zero => rfl
  | succ n ih => rw [List.range_succ, List.foldl_append, ih, Finset.sum_range_succ]; rfl

/-- An entry of a product of matrices. -/
theorem product_real {a b : CImg ℝ} (h : a.width = b.height) :
    ∃ c, a.product MathOps.real b = some c ∧ c.width = b.width ∧ c.height = a.height ∧
      ∀ x y : Nat, x < b.width → y < a.height →
        c.pixelAt 0 x y = ∑ k ∈ Finset.range a.width, a.pixelAt 0 k y * b.pixelAt 0 x k := by
  refine ⟨_, if_pos h, rfl, rfl, fun x y hx hy => ?_⟩
  have hin : (0 : Int) ≤ x ∧ (x : Int) < b.width ∧ (0 : Int) ≤ y ∧ (y : Int) < a.height := by
    omega
  rw [CImg.pixelAt_of_mem 0 _ hin, ← foldl_add_range]
  simp [MathOps.real]

/-- The weight of pixel `x` of 32 for the frequency `k`. -/
noncomputable def weight (k x : Nat) : ℝ := (phDctMatrix MathOps.real 32).pixelAt 0 x k

/-- The weights of a frequency have the sum 0. -/
theorem sum_weight {k : Nat} (hk : 1 ≤ k) (hlt : k < 32) :
    ∑ x ∈ Finset.range 32, weight k x = 0 := by
  have hentry : ∀ x ∈ Finset.range 32, weight k x = Real.sqrt (2 / (32 : Nat))
      * Real.cos (Real.pi / 2 / (32 : Nat) * k * (2 * x + 1 : Nat)) := by
    intro x hx
    have hin : (0 : Int) ≤ x ∧ (x : Int) < (32 : Nat) ∧ (0 : Int) ≤ k ∧ (k : Int) < (32 : Nat) := by
      have hlt := Finset.mem_range.mp hx
      omega
    rw [weight, CImg.pixelAt_of_mem 0 (phDctMatrix MathOps.real 32) hin]
    have hrow : ¬ k < 1 := by omega
    simp [phDctMatrix, MathOps.real, hrow]
  have hsum := sum_cos_middles (n := 32) hk (by omega)
  rw [Finset.sum_congr rfl hentry, ← Finset.mul_sum, hsum, mul_zero]

/-- A low coefficient, in column `x` and row `y`. -/
noncomputable def lowCoefficient (img : CImg ℝ) (x y : Nat) : ℝ :=
  coefficient (weight (y + 1)) (weight (x + 1)) 32 fun k j => img.pixelAt 0 k j

/-- `subsec`. -/
noncomputable def lowCoefficients (img : CImg ℝ) : List ℝ :=
  (List.range 8).flatMap fun y => (List.range 8).map fun x => lowCoefficient img x y

theorem length_lowCoefficients (img : CImg ℝ) : (lowCoefficients img).length = 64 := by
  simp [lowCoefficients]

/-- The hash of a picture of 32 by 32 pixels. -/
theorem hashSmall_real {img : CImg ℝ} (hw : img.width = 32) (hh : img.height = 32) :
    hashSmall MathOps.real img = some (hashBits MathOps.real (lowCoefficients img)
      (median MathOps.real.toFloatOps (lowCoefficients img))) := by
  obtain ⟨rows, hrows, hrw, hrh, hrpixel⟩ :=
    product_real (a := phDctMatrix MathOps.real 32) (b := img) (by rw [hh]; rfl)
  have hfit : rows.width = (phDctMatrix MathOps.real 32).transpose.height := by
    rw [hrw, hw]
    rfl
  obtain ⟨dct, hdct, hdw, hdh, hdpixel⟩ := product_real hfit
  have hpixel : ∀ x y : Nat, x < 8 → y < 8 →
      (dct.crop 0 1 1 8 8).pixelAt 0 x y = lowCoefficient img x y := by
    intro x y hx hy
    have hx' : (1 : Int) + x = (x + 1 : Nat) := by omega
    have hy' : (1 : Int) + y = (y + 1 : Nat) := by omega
    rw [CImg.pixelAt_crop 0 dct (by omega) (by omega), hx', hy',
      hdpixel (x + 1) (y + 1) (by show x + 1 < 32; omega) (by rw [hrh]; show y + 1 < 32; omega),
      hrw, hw, lowCoefficient, coefficient]
    refine Finset.sum_congr rfl fun k hk => ?_
    have hk := Finset.mem_range.mp hk
    rw [hrpixel k (y + 1) (by omega) (by show y + 1 < 32; omega), CImg.pixelAt_transpose]
    rfl
  have hsubsec : (dct.crop 0 1 1 8 8).unroll 0 = lowCoefficients img := by
    rw [CImg.unroll, lowCoefficients]
    refine List.flatMap_congr fun y hy => List.map_congr_left fun x hx => ?_
    exact hpixel x y (List.mem_range.mp hx) (List.mem_range.mp hy)
  have hzero : MathOps.real.ofNat 0 = 0 := Nat.cast_zero
  simp only [hashSmall, hrows, hdct, hzero, hsubsec, Option.bind_eq_bind, Option.bind_some]

/-- A larger contrast and a background along the rows or the columns leave
the hash as it is. -/
theorem hashSmall_background {img img' : CImg ℝ} (hw : img.width = 32) (hh : img.height = 32)
    (hw' : img'.width = 32) (hh' : img'.height = 32) {a : ℝ} (ha : 0 < a) (f g : Nat → ℝ)
    (h : ∀ x y : Nat, x < 32 → y < 32 →
      img'.pixelAt 0 x y = a * img.pixelAt 0 x y + (f x + g y)) :
    hashSmall MathOps.real img' = hashSmall MathOps.real img := by
  have hcoefficient : ∀ x y : Nat, x < 8 → y < 8 →
      lowCoefficient img' x y = a * lowCoefficient img x y := by
    intro x y hx hy
    have hbackground := coefficient_background (weight (y + 1)) (weight (x + 1))
      (sum_weight (by omega) (by omega)) (sum_weight (by omega) (by omega))
      (fun k j => img.pixelAt 0 k j) a f g
    rw [lowCoefficient, lowCoefficient, ← hbackground]
    refine Finset.sum_congr rfl fun k hk => ?_
    congr 1
    refine Finset.sum_congr rfl fun j hj => ?_
    exact congrArg (weight (y + 1) j * ·) (h k j (Finset.mem_range.mp hk) (Finset.mem_range.mp hj))
  have hlow : lowCoefficients img' = (lowCoefficients img).map fun c => a * c := by
    rw [lowCoefficients, lowCoefficients, List.map_flatMap]
    refine List.flatMap_congr fun y hy => ?_
    rw [List.map_map]
    refine List.map_congr_left fun x hx => ?_
    exact hcoefficient x y (List.mem_range.mp hx) (List.mem_range.mp hy)
  rw [hashSmall_real hw hh, hashSmall_real hw' hh', hlow, median_mul ha]
  congr 1
  apply hashBits_congr
  intro i hi
  have hget : ((lowCoefficients img).map fun c => a * c).getD i 0
      = a * (lowCoefficients img).getD i 0 := by
    simp [List.getD_eq_getElem?_getD, length_lowCoefficients, hi]
  have hzero : MathOps.real.ofNat 0 = 0 := Nat.cast_zero
  rw [hzero, hget]
  simp [MathOps.real, mul_lt_mul_iff_right₀ ha]

/-- At most half of the bits are set. -/
theorem ones_hashSmall {img : CImg ℝ} (hw : img.width = 32) (hh : img.height = 32) :
    ∃ result, hashSmall MathOps.real img = some result ∧ ones 64 result.toNat ≤ 32 := by
  refine ⟨_, hashSmall_real hw hh, ?_⟩
  have hlen := length_lowCoefficients img
  rw [ones_hashBits MathOps.real hlen]
  exact countP_median_lt (n := 32) (by omega)

/-! ## Files -/

/-- The sums of the two halves. -/
theorem halfSums_real (img : CImg ℝ) : halfSums MathOps.real.toFloatOps img
    = some (∑ x ∈ Finset.range (img.width / 2), ∑ y ∈ Finset.range img.height,
        (img.pixelAt 0 x y, img.pixelAt 0 (img.width - 1 - x) y)) := by
  have hcol : ∀ x < img.width / 2, ∀ sums : ℝ × ℝ,
      (List.range img.height).foldlM (fun sums y => do
        let a ← img.data x y
        let b ← img.data (img.width - 1 - x) y
        some (MathOps.real.add sums.1 a, MathOps.real.add sums.2 b)) sums
      = some (sums + ∑ y ∈ Finset.range img.height,
          (img.pixelAt 0 x y, img.pixelAt 0 (img.width - 1 - x) y)) := by
    intro x hx sums
    apply foldlM_range_sum
    intro y hy sums
    have hright : ((img.width - 1 - x : Nat) : Int) = img.width - 1 - x := by omega
    rw [img.data_eq 0 (by omega) hy, img.data_eq 0 (by omega) hy, hright]
    rfl
  have hzero : (MathOps.real.ofNat 0, MathOps.real.ofNat 0) = (0 : ℝ × ℝ) := by
    simp [MathOps.real]
  rw [halfSums, foldlM_range_sum hcol, hzero, zero_add]

section

variable {S : Type} {L : PictureLibrary ℝ S}

/-- `resize` makes pictures of the size that it is asked for. -/
def Resizes (L : PictureLibrary ℝ S) : Prop :=
  ∀ img w h, (L.resize img w h).width = w ∧ (L.resize img w h).height = h

/-- A part of a picture that ends at column `x1` has the columns between 0
and `x1`, whichever is the left one. -/
def CropsBetween (L : PictureLibrary ℝ S) : Prop :=
  ∀ src x1 y1 z1, (L.luminance (L.cropTo src x1 y1 z1)).width = x1.natAbs + 1

theorem cropBorder_of_borders {α : Type} {F : FloatOps α} {img : CImg α} {b : Bounds}
    (hb : findBorders F img = some b) : cropBorder F img = some (cropWith F b img) := by
  have hlarge : b.nh < 32 ∨ b.nw < 32 ↔ ¬ b.Large := by
    unfold Bounds.Large
    omega
  rw [cropBorder, hb, cropWith, apply_ite some]
  simp only [Option.bind_eq_bind, Option.bind_some, hlarge, ite_not]
  rfl

/-- A picture whose content is too small has the hash 0. -/
theorem hashPicture_of_not_large {c : CImg ℝ} {b : Bounds}
    (hb : findBorders MathOps.real.toFloatOps c = some b) (h : ¬ b.Large) :
    hashPicture MathOps.real L c = some (0, 0) := by
  simp only [hashPicture, cropAndMirror, cropBorder_of_borders hb, cropWith_of_not_large _ h,
    Option.bind_eq_bind, Option.bind_some]
  rfl

/-- Otherwise it has the hash of what is kept of it. -/
theorem hashPicture_of_large {c : CImg ℝ} {b : Bounds}
    (hb : findBorders MathOps.real.toFloatOps c = some b) (h : b.Large) :
    hashPicture MathOps.real L c
      = (mirror MathOps.real.toFloatOps (kept MathOps.real.toFloatOps b c)).bind fun m =>
        (hashSmall MathOps.real (L.resize (L.convolve m (meanfilter MathOps.real)) 32 32)).map
          fun result => (0, result) := by
  simp only [hashPicture, cropAndMirror, cropBorder_of_borders hb, cropWith_of_large _ h,
    Option.bind_eq_bind, Option.bind_some, lt_irrefl, if_false]
  cases mirror MathOps.real.toFloatOps (kept MathOps.real.toFloatOps b c) with
  | none => rfl
  | some m =>
      simp only [Option.map_some, Option.bind_some]
      cases hashSmall MathOps.real (L.resize (L.convolve m (meanfilter MathOps.real)) 32 32) <;> rfl

/-- Each picture has a hash, with at most half of the bits set. -/
theorem hashPicture_balanced (hresize : Resizes L) (c : CImg ℝ) :
    ∃ result, hashPicture MathOps.real L c = some (0, result) ∧ ones 64 result.toNat ≤ 32 := by
  have hb := findBorders_eq MathOps.real.toFloatOps c
  generalize Bounds.mk _ _ _ _ = b at hb
  by_cases h : b.Large
  · rw [hashPicture_of_large hb h, mirror, halfSums_real, Option.map_some, Option.bind_some]
    obtain ⟨result, hresult, hones⟩ := ones_hashSmall (hresize _ 32 32).1 (hresize _ 32 32).2
    exact ⟨result, by rw [hresult]; rfl, hones⟩
  · exact ⟨0, hashPicture_of_not_large hb h, by decide⟩

/-- What `GetHashCode` says of a file: -1 if it cannot be loaded, and
otherwise 0 and a hash. -/
theorem getHashCode_spec (hresize : Resizes L) (hcrop : CropsBetween L)
    (filename : Option Bytes) :
    ∃ ret result, getHashCode MathOps.real L filename = some (ret, result) ∧
      (ret = 0 ∨ ret = -1) ∧ (ret = -1 ↔ filename.bind L.load = none) ∧
      (ret = -1 → result = 0) ∧ ones 64 result.toNat ≤ 32 ∧
      ∀ src, filename.bind L.load = some src → L.spectrum src = 4 → result = 0 := by
  cases filename with
  | none => exact ⟨-1, 0, rfl, by simp⟩
  | some filename =>
      cases hload : L.load filename with
      | none =>
          have hcall : getHashCode MathOps.real L (some filename) = some (-1, 0) := by
            simp [getHashCode, hload]
          exact ⟨-1, 0, hcall, by simp [hload]⟩
      | some src =>
          have hcall : getHashCode MathOps.real L (some filename)
              = hashPicture MathOps.real L (luma L src) := by
            simp [getHashCode, hload]
          obtain ⟨result, hresult, hones⟩ := hashPicture_balanced hresize (luma L src)
          refine ⟨0, result, hcall.trans hresult, .inl rfl, by simp [hload], by simp, hones, ?_⟩
          intro src' hsrc hfour
          rw [Option.bind_some, hload, Option.some.injEq] at hsrc
          subst hsrc
          have hwidth : (luma L src).width = 2 := by
            have hthree : ¬ L.spectrum src = 3 := by omega
            rw [luma, if_neg hthree, if_pos hfour, hcrop]
            rfl
          have hb := findBorders_eq MathOps.real.toFloatOps (luma L src)
          generalize Bounds.mk _ _ _ _ = b at hb
          have hsmall : ¬ b.Large := by
            intro hlarge
            have hwithin := (findBorders_within MathOps.real.toFloatOps hb).1
            have hnw := hlarge.1
            rw [Bounds.nw] at hnw
            omega
          rw [hashPicture_of_not_large hb hsmall, Option.some.injEq, Prod.mk.injEq] at hresult
          exact hresult.2.symm

/-- The client keeps the hashes of the pictures that have one. -/
theorem hashFrames_eq (pictures : Pictures) (dir : Bytes) (filelist : List Bytes) :
    hashFrames pictures dir filelist = (filelist.filter hasJpgSuffix).filterMap fun dName =>
      pictures.getHashCode (snprintf 128 (dir ++ ascii "/" ++ dName)) := by
  induction filelist using List.reverseRecOn with
  | nil => rfl
  | append_singleton filelist dName ih =>
      rw [hashFrames] at ih ⊢
      rw [List.foldl_append, ih, List.filter_append, List.filterMap_append, List.foldl_cons,
        List.foldl_nil]
      cases hjpg : hasJpgSuffix dName with
      | false => simp [hjpg]
      | true =>
          cases hhash : pictures.getHashCode (snprintf 128 (dir ++ ascii "/" ++ dName)) with
          | none => simp [hjpg, hhash, -List.append_assoc]
          | some h => simp [hjpg, hhash, -List.append_assoc]

/-- A file that cannot be loaded has no hash. Any other file has one, of
whose 64 bits at most 32 are set, and it is 0 if the picture has an alpha
channel, whatever it shows. The client posts no other hashes, and one for
each picture that can be loaded. -/
theorem hashes_balanced (hresize : Resizes L) (hcrop : CropsBetween L) :
    (∀ filename, ∃ ret result, getHashCode MathOps.real L filename = some (ret, result) ∧
      (ret = 0 ∨ ret = -1) ∧ (ret = -1 ↔ filename.bind L.load = none) ∧
      (ret = -1 → result = 0) ∧ ones 64 result.toNat ≤ 32 ∧
      ∀ src, filename.bind L.load = some src → L.spectrum src = 4 → result = 0) ∧
    ∀ scandir dir filelist,
      (∀ h ∈ hashFrames (pictures MathOps.real L scandir) dir filelist, ones 64 h.toNat ≤ 32) ∧
      (hashFrames (pictures MathOps.real L scandir) dir filelist).length
        = (filelist.filter hasJpgSuffix).countP fun dName =>
            (L.load (snprintf 128 (dir ++ ascii "/" ++ dName))).isSome := by
  refine ⟨getHashCode_spec hresize hcrop, fun scandir dir filelist => ?_⟩
  have hfile : ∀ filename, ∃ result, ones 64 (result : UInt64).toNat ≤ 32 ∧
      (pictures MathOps.real L scandir).getHashCode filename
        = if (L.load filename).isSome then some result else none := by
    intro filename
    obtain ⟨ret, result, hcall, hret, hfails, -, hbits, -⟩ :=
      getHashCode_spec hresize hcrop (some filename)
    refine ⟨result, hbits, ?_⟩
    have hhash : (pictures MathOps.real L scandir).getHashCode filename
        = if ret < 0 then none else some result := by
      simp only [pictures, hcall, Option.bind_some]
    rw [Option.bind_some] at hfails
    rcases hret with rfl | rfl
    · have hloaded : (L.load filename).isSome = true := by
        rw [← Option.ne_none_iff_isSome]
        intro hnone
        exact absurd (hfails.mpr hnone) (by decide)
      rw [hhash, hloaded]
      rfl
    · rw [hhash, hfails.mp rfl]
      rfl
  rw [hashFrames_eq]
  constructor
  · intro h hh
    obtain ⟨dName, -, hhash⟩ := List.mem_filterMap.mp hh
    obtain ⟨result, hbits, heq⟩ := hfile (snprintf 128 (dir ++ ascii "/" ++ dName))
    rw [heq, Option.ite_none_right_eq_some, Option.some.injEq] at hhash
    exact hhash.2 ▸ hbits
  · rw [List.length_filterMap_eq_countP]
    refine List.countP_congr fun dName _ => ?_
    obtain ⟨result, -, heq⟩ := hfile (snprintf 128 (dir ++ ascii "/" ++ dName))
    rw [heq]
    cases (L.load (snprintf 128 (dir ++ ascii "/" ++ dName))).isSome <;> simp

end

/-! ## Files of one channel -/

/-- The place in a line of `n` pixels that is next to place `x`. -/
def near (n : Nat) (x : Int) : Int := max 0 (min x (n - 1))

/-- The library, for files of one channel. -/
noncomputable def oneChannel (load : Bytes → Option (CImg ℝ)) : PictureLibrary ℝ (CImg ℝ) where
  load := load
  spectrum _ := 1
  luminance c := c
  channel0 c := c
  cropTo c x1 y1 _ := c.crop 0 (min 0 x1) (min 0 y1) (max 0 x1) (max 0 y1)
  convolve img mask :=
    { width := img.width
      height := img.height
      pixel := fun x y => ∑ i ∈ Finset.range mask.width, ∑ j ∈ Finset.range mask.height,
        mask.pixelAt 0 i j * img.pixelAt 0 (near img.width (x.val + i - mask.width / 2))
          (near img.height (y.val + j - mask.height / 2)) }
  resize img w h :=
    ⟨w, h, fun x y => img.pixelAt 0 (x.val * img.width / w) (y.val * img.height / h)⟩

theorem resizes_oneChannel (load : Bytes → Option (CImg ℝ)) : Resizes (oneChannel load) :=
  fun _ _ _ => ⟨rfl, rfl⟩

theorem cropsBetween_oneChannel (load : Bytes → Option (CImg ℝ)) :
    CropsBetween (oneChannel load) := by
  intro src x1 y1 z1
  show (max 0 x1 - min 0 x1 + 1).toNat = x1.natAbs + 1
  omega

/-- A directory with one picture of 64 by 64 pixels. -/
noncomputable def oneFile (filename : Bytes) : Option (CImg ℝ) :=
  if filename = ascii "d/1.jpg" then some ⟨64, 64, fun x y => (x.val * y.val % 256 : Nat)⟩ else none

theorem hashes_balanced_oneFile : ∃ h : UInt64, ones 64 h.toNat ≤ 32 ∧
    hashFrames (pictures MathOps.real (oneChannel oneFile) fun _ => none) (ascii "d")
      [ascii "1.jpg", ascii "2.jpg", ascii "1.png"] = [h] := by
  obtain ⟨hbits, hlen⟩ := (hashes_balanced (resizes_oneChannel oneFile)
    (cropsBetween_oneChannel oneFile)).2 (fun _ => none) (ascii "d")
    [ascii "1.jpg", ascii "2.jpg", ascii "1.png"]
  have hload : ∀ filename, ((oneChannel oneFile).load filename).isSome
      = decide (filename = ascii "d/1.jpg") := by
    intro filename
    show (oneFile filename).isSome = _
    by_cases h : filename = ascii "d/1.jpg" <;> simp [oneFile, h]
  simp only [hload] at hlen
  obtain ⟨h, hone⟩ := List.length_eq_one_iff.mp (hlen.trans (by decide))
  exact ⟨h, hbits h (hone ▸ List.mem_singleton_self h), hone⟩

end VideoMatch.Client
