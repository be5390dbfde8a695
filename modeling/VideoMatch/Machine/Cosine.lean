/-
VideoMatch.Machine.Cosine — weighted sums that do not see a background.

A coefficient of a picture is the sum of its pixels, weighted by columns and
by rows. If the weights of the columns and those of the rows have the sum 0,
a background that is the same along the columns or along the rows adds
nothing to it (`coefficient_background`).

The weights of a cosine transform are such: the cosine of a multiple of the
half period, taken at the middles of equal parts, has the sum 0
(`sum_cos_middles`).
-/
import Mathlib

namespace VideoMatch.Machine

open Finset

/-- A cosine at the middles of `n` equal parts of `k` half periods. -/
theorem sum_cos_middles {n k : Nat} (hk : 0 < k) (hlt : k < 2 * n) :
    ∑ x ∈ range n, Real.cos (Real.pi / 2 / n * k * (2 * x + 1 : Nat)) = 0 := by
  obtain ⟨a, ha⟩ : ∃ a, a = Real.pi / 2 / n * k := ⟨_, rfl⟩
  have hn : (0 : ℝ) < n := by
    have hpos : 0 < n := by omega
    exact_mod_cast hpos
  have hcast : (k : ℝ) < 2 * n := by exact_mod_cast hlt
  have ha' : a * (2 * n) = Real.pi * k := by
    rw [ha]
    field_simp
  have hpos : 0 < a := by
    rw [ha]
    positivity
  have hpi : a < Real.pi := by
    have hle : a * (2 * n) < Real.pi * (2 * n) := by
      rw [ha']
      exact mul_lt_mul_of_pos_left hcast Real.pi_pos
    exact lt_of_mul_lt_mul_right hle (by positivity)
  have hsin : Real.sin a ≠ 0 := (Real.sin_pos_of_pos_of_lt_pi hpos hpi).ne'
  -- each term is a difference of sines, and the sum is that of the ends
  have hstep : ∀ x : Nat, 2 * Real.sin a * Real.cos (a * (2 * x + 1 : Nat))
      = Real.sin (2 * a * (x + 1 : Nat)) - Real.sin (2 * a * x) := by
    intro x
    have hup : 2 * a * (x + 1 : Nat) = a * (2 * x + 1 : Nat) + a := by push_cast; ring
    have hdown : 2 * a * x = a * (2 * x + 1 : Nat) - a := by push_cast; ring
    rw [hup, hdown, Real.sin_add, Real.sin_sub]
    ring
  have htotal : 2 * Real.sin a * ∑ x ∈ range n, Real.cos (a * (2 * x + 1 : Nat)) = 0 := by
    have hend : 2 * a * n = k * Real.pi := by linarith
    rw [mul_sum, sum_congr rfl fun x _ => hstep x,
      sum_range_sub fun x : Nat => Real.sin (2 * a * x), hend, Real.sin_nat_mul_pi]
    simp
  rw [← ha]
  exact (mul_eq_zero.mp htotal).resolve_left (mul_ne_zero two_ne_zero hsin)

section

variable {n : Nat} (v w : Nat → ℝ)

/-- The sum of `p x y`, weighted by `v` along `y` and by `w` along `x`. -/
def coefficient (n : Nat) (p : Nat → Nat → ℝ) : ℝ :=
  ∑ x ∈ range n, (∑ y ∈ range n, v y * p x y) * w x

/-- What is the same along the columns or along the rows is not seen. -/
theorem coefficient_background (hv : ∑ y ∈ range n, v y = 0) (hw : ∑ x ∈ range n, w x = 0)
    (p : Nat → Nat → ℝ) (a : ℝ) (f g : Nat → ℝ) :
    coefficient v w n (fun x y => a * p x y + (f x + g y)) = a * coefficient v w n p := by
  have hcolumn : ∀ x, (∑ y ∈ range n, v y * (a * p x y + (f x + g y))) * w x
      = a * ((∑ y ∈ range n, v y * p x y) * w x) + (∑ y ∈ range n, v y * g y) * w x := by
    intro x
    have hsplit : ∑ y ∈ range n, v y * (a * p x y + (f x + g y))
        = a * ∑ y ∈ range n, v y * p x y + f x * ∑ y ∈ range n, v y
          + ∑ y ∈ range n, v y * g y := by
      rw [mul_sum, mul_sum, ← sum_add_distrib, ← sum_add_distrib]
      refine sum_congr rfl fun y _ => ?_
      ring
    rw [hsplit, hv]
    ring
  rw [coefficient, sum_congr rfl fun x _ => hcolumn x, sum_add_distrib, ← mul_sum, ← mul_sum, hw]
  simp [coefficient]

end

end VideoMatch.Machine
