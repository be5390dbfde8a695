/-
VideoMatch.Cxx.Matrix — pictures as matrices, and the middle of a list.

`MathOps` adds to the arithmetic of pixels what `cmath` has. `real` are
the operations on real numbers, without rounding.

A product of matrices needs a factor as wide as the other one is high. The
median of an even number of values is the mean of the two in the middle, so
at most half of them are above it (`countP_median_lt`).
-/
import VideoMatch.Cxx.CImg

namespace VideoMatch.Cxx

/-! ## Arithmetic -/

structure MathOps (α : Type*) extends FloatOps α where
  mul : α → α → α
  div : α → α → α
  sqrt : α → α
  cos : α → α
  pi : α

/-- Real numbers, without rounding. -/
noncomputable def MathOps.real : MathOps ℝ where
  ofNat n := n
  add a b := a + b
  sub a b := a - b
  neg a := -a
  square a := a ^ 2
  divInt a n := a / n
  lt a b := decide (a < b)
  sqrtGt a b := decide (b < Real.sqrt a)
  mul a b := a * b
  div a b := a / b
  sqrt := Real.sqrt
  cos := Real.cos
  pi := Real.pi

/-- A map of numbers that goes along with the operations. Comparisons with
a square root are only needed for natural numbers. -/
structure FloatOps.Hom {α β : Type*} (F : FloatOps α) (G : FloatOps β) (φ : α → β) : Prop where
  ofNat : ∀ n, φ (F.ofNat n) = G.ofNat n
  add : ∀ a b, φ (F.add a b) = G.add (φ a) (φ b)
  sub : ∀ a b, φ (F.sub a b) = G.sub (φ a) (φ b)
  neg : ∀ a, φ (F.neg a) = G.neg (φ a)
  square : ∀ a, φ (F.square a) = G.square (φ a)
  divInt : ∀ a n, φ (F.divInt a n) = G.divInt (φ a) n
  lt : ∀ a b, F.lt a b = G.lt (φ a) (φ b)
  sqrtGt : ∀ a n, F.sqrtGt a (F.ofNat n) = G.sqrtGt (φ a) (G.ofNat n)

/-- A rational number is a real number. -/
theorem FloatOps.Hom.cast : Hom exact MathOps.real.toFloatOps fun q : ℚ => (q : ℝ) where
  ofNat n := Rat.cast_natCast n
  add := Rat.cast_add
  sub := Rat.cast_sub
  neg := Rat.cast_neg
  square a := Rat.cast_pow a 2
  divInt a n := by
    show ((a / n : ℚ) : ℝ) = a / n
    rw [Rat.cast_div, Rat.cast_natCast]
  lt a b := by simp [exact, MathOps.real]
  sqrtGt a n := by
    have hnat : (0 : ℚ) ≤ n := Nat.cast_nonneg n
    rw [Bool.eq_iff_iff]
    refine (exact_sqrtGt hnat).trans ?_
    rw [Rat.cast_natCast]
    exact decide_eq_true_iff.symm

/-! ## Lists -/

section

variable {α : Type*} (F : FloatOps α)

/-- `kth_smallest(k)`. -/
def kthSmallest (l : List α) (k : Nat) : α :=
  (l.mergeSort fun a b => !F.lt b a).getD k (F.ofNat 0)

/-- `median()`. -/
def median (l : List α) : α :=
  let res := kthSmallest F l (l.length / 2)
  if l.length % 2 = 1 then res
  else F.divInt (F.add res (kthSmallest F l (l.length / 2 - 1))) 2

end

theorem real_le (a b : ℝ) : (!MathOps.real.lt b a) = decide (a ≤ b) := by
  simp only [MathOps.real, ← not_lt, decide_not]

theorem kthSmallest_real (l : List ℝ) (k : Nat) :
    kthSmallest MathOps.real.toFloatOps l k = (l.mergeSort fun a b => decide (a ≤ b)).getD k 0 := by
  simp only [kthSmallest, real_le]
  simp [MathOps.real]

/-- A larger scale has a larger median. -/
theorem median_mul {a : ℝ} (ha : 0 < a) (l : List ℝ) :
    median MathOps.real.toFloatOps (l.map fun x => a * x)
      = a * median MathOps.real.toFloatOps l := by
  have hkth : ∀ k, kthSmallest MathOps.real.toFloatOps (l.map fun x => a * x) k
      = a * kthSmallest MathOps.real.toFloatOps l k := by
    intro k
    rw [kthSmallest_real, kthSmallest_real, ← List.map_mergeSort (r := fun a b => decide (a ≤ b))
      (fun x _ y _ => by simp [mul_le_mul_iff_right₀ ha])]
    simp only [List.getD_eq_getElem?_getD, List.getElem?_map]
    cases (l.mergeSort fun a b => decide (a ≤ b))[k]? <;> simp
  simp only [median, List.length_map, hkth]
  split
  · rfl
  · simp only [MathOps.real]
    ring

/-- At most half of the values are above the median. -/
theorem countP_median_lt {l : List ℝ} {n : Nat} (hl : l.length = 2 * n) :
    l.countP (fun x => decide (median MathOps.real.toFloatOps l < x)) ≤ n := by
  obtain ⟨s, hs⟩ : ∃ s, s = l.mergeSort fun a b => decide (a ≤ b) := ⟨_, rfl⟩
  have hperm : s.Perm l := hs ▸ List.mergeSort_perm l _
  have hlen : s.length = 2 * n := hperm.length_eq.trans hl
  have hsorted : s.Pairwise (· ≤ ·) := by
    have hpairwise := @List.pairwise_mergeSort ℝ (fun a b => decide (a ≤ b))
      (fun a b c hab hbc => by simpa using le_trans (by simpa using hab) (by simpa using hbc))
      (fun a b => by simpa using le_total a b) l
    rw [← hs] at hpairwise
    simpa using hpairwise
  have hmono : ∀ i j : Nat, i ≤ j → j < 2 * n → s.getD i 0 ≤ s.getD j 0 := by
    intro i j hij hj
    rw [List.getD_eq_getElem _ _ (by omega), List.getD_eq_getElem _ _ (by omega)]
    exact hsorted.rel_get_of_le (a := ⟨i, by omega⟩) (b := ⟨j, by omega⟩) hij
  have hmedian : median MathOps.real.toFloatOps l = (s.getD n 0 + s.getD (n - 1) 0) / 2 := by
    have heven : 2 * n % 2 = 0 := by omega
    have hhalf : 2 * n / 2 = n := by omega
    simp only [median, hl, heven, hhalf, kthSmallest_real, ← hs]
    simp [MathOps.real]
  rw [← hperm.countP_eq, ← List.take_append_drop n s, List.countP_append]
  have hlow : (s.take n).countP (fun x => decide (median MathOps.real.toFloatOps l < x)) = 0 := by
    rw [List.countP_eq_zero]
    intro x hx
    obtain ⟨i, hi, rfl⟩ := List.mem_iff_getElem.mp hx
    rw [List.length_take] at hi
    rw [List.getElem_take, ← List.getD_eq_getElem (d := 0), hmedian]
    have hlast := hmono i (n - 1) (by omega) (by omega)
    have hmid := hmono (n - 1) n (by omega) (by omega)
    simp only [decide_eq_true_eq, not_lt]
    linarith
  have hhigh := List.countP_le_length (l := s.drop n)
    (p := fun x => decide (median MathOps.real.toFloatOps l < x))
  rw [List.length_drop] at hhigh
  omega

/-! ## Pictures -/

namespace CImg

variable {α β : Type*}

/-- `operator*` of two pictures; the sizes must fit. -/
def product (M : MathOps α) (a b : CImg α) : Option (CImg α) :=
  if a.width = b.height then
    some ⟨b.width, a.height, fun x y => (List.range a.width).foldl (fun sum (k : Nat) =>
      M.add sum (M.mul (a.pixelAt (M.ofNat 0) k y) (b.pixelAt (M.ofNat 0) x k))) (M.ofNat 0)⟩
  else none

/-- `unroll('x')`: the pixels, row by row. -/
def unroll (fill : α) (img : CImg α) : List α :=
  (List.range img.height).flatMap fun y : Nat => img.row fill y

/-- Each pixel for itself. -/
def map (f : α → β) (img : CImg α) : CImg β := ⟨img.width, img.height, fun x y => f (img.pixel x y)⟩

@[simp] theorem width_map (f : α → β) (img : CImg α) : (img.map f).width = img.width := rfl

@[simp] theorem height_map (f : α → β) (img : CImg α) : (img.map f).height = img.height := rfl

theorem pixelAt_map (f : α → β) (img : CImg α) (fill : α) {fill' : β} {x y : Int}
    (h : 0 ≤ x ∧ x < img.width ∧ 0 ≤ y ∧ y < img.height) :
    (img.map f).pixelAt fill' x y = f (img.pixelAt fill x y) := by
  rw [pixelAt_of_mem fill' (img.map f) h, pixelAt_of_mem fill img h]
  rfl

end CImg

end VideoMatch.Cxx
