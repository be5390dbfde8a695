/-
VideoMatch.Cxx.Double — results in double precision.

A `double` is a rational number here, and the result of an operation is
the exact one, rounded to 53 binary digits: the nearest such number, and of
two the one whose last digit is even (`toDouble`). Exponents are not
bounded, so this is the arithmetic of IEEE 754 as long as no result is out
of its range.

* A rounded result differs from the exact one by at most one part in 2^53
  (`abs_toDouble_sub_le`).
* A number of at most 53 digits is not changed (`toDouble_of_short`), so
  what has been rounded is not changed again.
* `Rounded k x y` says that `y` is within `k` roundings of `x`. It goes
  through products and quotients, which add up the roundings.
-/
import Mathlib

namespace VideoMatch.Cxx

/-! ## Rounding -/

/-- The nearest integer, the even one of two. -/
def roundHalfEven (q : ℚ) : Int :=
  let low := ⌊q⌋
  if q - low < 1 / 2 then low
  else if 1 / 2 < q - low then low + 1
  else if low % 2 = 0 then low else low + 1

/-- The distance between the numbers of 53 digits at `q`. -/
def spacing (q : ℚ) : ℚ := 2 ^ (Int.log 2 |q| - 52)

/-- `q` as a `double`. -/
def toDouble (q : ℚ) : ℚ := roundHalfEven (q / spacing q) * spacing q

/-- `a - b`, `a * b` and `a / b` of two `double`s. -/
def Double.sub (a b : ℚ) : ℚ := toDouble (a - b)
def Double.mul (a b : ℚ) : ℚ := toDouble (a * b)
def Double.div (a b : ℚ) : ℚ := toDouble (a / b)

/-- One part in 2^53. -/
def roundoff : ℚ := 1 / 2 ^ 53

theorem abs_roundHalfEven_sub_le (q : ℚ) : |(roundHalfEven q : ℚ) - q| ≤ 1 / 2 := by
  have hle := Int.floor_le q
  have hlt := Int.lt_floor_add_one q
  unfold roundHalfEven
  dsimp only
  rw [abs_le]
  split_ifs
  all_goals push_cast; constructor <;> linarith

theorem roundHalfEven_le {q : ℚ} {n : Int} (h : q ≤ n) : roundHalfEven q ≤ n := by
  have hlow : ⌊q⌋ ≤ n := Int.cast_le.mp ((Int.floor_le q).trans h)
  rcases hlow.lt_or_eq with hlt | heq
  · unfold roundHalfEven
    dsimp only
    split_ifs <;> omega
  · have hq : q = n := le_antisymm h (heq ▸ Int.floor_le q)
    rw [roundHalfEven, heq, if_pos (by rw [hq]; norm_num)]

theorem roundHalfEven_intCast (n : Int) : roundHalfEven n = n := by
  unfold roundHalfEven
  simp

theorem spacing_pos (q : ℚ) : 0 < spacing q := zpow_pos two_pos _

/-- A number other than 0 has its first digit 52 places before the last. -/
theorem spacing_bounds {q : ℚ} (hq : q ≠ 0) :
    2 ^ 52 * spacing q ≤ |q| ∧ |q| < 2 ^ 53 * spacing q := by
  have hpos : 0 < |q| := abs_pos.mpr hq
  have hle : (2 : ℚ) ^ Int.log 2 |q| ≤ |q| := by
    exact_mod_cast Int.zpow_log_le_self (b := 2) one_lt_two hpos
  have hlt : |q| < (2 : ℚ) ^ (Int.log 2 |q| + 1) := by
    exact_mod_cast Int.lt_zpow_succ_log_self (b := 2) one_lt_two |q|
  have hlog : (2 : ℚ) ^ 52 * spacing q = 2 ^ Int.log 2 |q| := by
    rw [spacing, ← zpow_natCast, ← zpow_add₀ two_ne_zero]
    congr 1
    push_cast
    ring
  have hsucc : (2 : ℚ) ^ 53 * spacing q = 2 ^ (Int.log 2 |q| + 1) := by
    rw [zpow_add₀ two_ne_zero, ← hlog]
    ring
  rw [hlog, hsucc]
  exact ⟨hle, hlt⟩

/-- The error of a rounding. -/
theorem abs_toDouble_sub_le (q : ℚ) : |toDouble q - q| ≤ roundoff * |q| := by
  have hpos := spacing_pos q
  have hdiff : toDouble q - q = (roundHalfEven (q / spacing q) - q / spacing q) * spacing q := by
    rw [toDouble, sub_mul, div_mul_cancel₀ _ hpos.ne']
  have hhalf := abs_roundHalfEven_sub_le (q / spacing q)
  rcases eq_or_ne q 0 with rfl | hq
  · have hzero : toDouble 0 = 0 := by
      have hint := roundHalfEven_intCast 0
      rw [Int.cast_zero] at hint
      rw [toDouble, zero_div, hint, Int.cast_zero, zero_mul]
    simp [hzero]
  · have hfirst := (spacing_bounds hq).1
    calc |toDouble q - q| = |(roundHalfEven (q / spacing q) : ℚ) - q / spacing q| * spacing q := by
          rw [hdiff, abs_mul, abs_of_pos hpos]
      _ ≤ 1 / 2 * spacing q := mul_le_mul_of_nonneg_right hhalf hpos.le
      _ ≤ roundoff * |q| := by
          rw [roundoff]
          linarith

/-! ## Exact results -/

/-- The last digit of a number of fewer than 54 digits is not finer than
the spacing. -/
theorem multiple_of_spacing {m : Int} (k : Int) (hm : |m| < 2 ^ 53) :
    ∃ n : Int, (m : ℚ) * 2 ^ k = n * spacing (m * 2 ^ k) := by
  rcases eq_or_ne m 0 with rfl | hm0
  · exact ⟨0, by simp⟩
  have hk : (0 : ℚ) < 2 ^ k := zpow_pos two_pos k
  have hne : (m : ℚ) * 2 ^ k ≠ 0 := mul_ne_zero (Int.cast_ne_zero.mpr hm0) hk.ne'
  have hle := (spacing_bounds hne).1
  rw [spacing] at hle ⊢
  generalize Int.log 2 |(m : ℚ) * 2 ^ k| - 52 = e at hle ⊢
  have hm' : |(m : ℚ)| < 2 ^ 53 := by exact_mod_cast hm
  have hlt : (2 : ℚ) ^ (52 + e) < 2 ^ (53 + k) := by
    calc (2 : ℚ) ^ (52 + e) = 2 ^ 52 * 2 ^ e := by rw [zpow_add₀ two_ne_zero]; rfl
      _ ≤ |(m : ℚ)| * 2 ^ k := by rwa [abs_mul, abs_of_pos hk] at hle
      _ < 2 ^ 53 * 2 ^ k := mul_lt_mul_of_pos_right hm' hk
      _ = 2 ^ (53 + k) := by rw [zpow_add₀ two_ne_zero]; rfl
  have hexp : e ≤ k := by
    have hexp := (zpow_lt_zpow_iff_right₀ one_lt_two).mp hlt
    omega
  refine ⟨m * 2 ^ (k - e).toNat, ?_⟩
  have hsplit : (2 : ℚ) ^ k = 2 ^ (k - e).toNat * 2 ^ e := by
    rw [← zpow_natCast, Int.toNat_of_nonneg (by omega), ← zpow_add₀ two_ne_zero, Int.sub_add_cancel]
  push_cast
  rw [mul_assoc, ← hsplit]

theorem toDouble_of_multiple {q : ℚ} (h : ∃ n : Int, q = n * spacing q) : toDouble q = q := by
  obtain ⟨n, hn⟩ := h
  have hdiv : q / spacing q = n := by rw [div_eq_iff (spacing_pos q).ne', ← hn]
  rw [toDouble, hdiv, roundHalfEven_intCast, ← hn]

/-- A number of at most 53 digits is a `double`, and so is the next power
of two. -/
theorem toDouble_of_short {m k : Int} (hm : |m| ≤ 2 ^ 53) :
    toDouble (m * 2 ^ k) = m * 2 ^ k := by
  apply toDouble_of_multiple
  rcases hm.lt_or_eq with hlt | heq
  · exact multiple_of_spacing k hlt
  · obtain ⟨m', rfl, hlt⟩ : ∃ m', m = 2 * m' ∧ |m'| < 2 ^ 53 := by
      rcases eq_or_eq_neg_of_abs_eq heq with rfl | rfl
      · exact ⟨2 ^ 52, by norm_num, by norm_num⟩
      · exact ⟨-2 ^ 52, by norm_num, by norm_num⟩
    have hhalf : ((2 * m' : Int) : ℚ) * 2 ^ k = m' * 2 ^ (k + 1) := by
      rw [zpow_add₀ two_ne_zero]
      push_cast
      ring
    rw [hhalf]
    exact multiple_of_spacing (k + 1) hlt

theorem toDouble_natCast {n : Nat} (hn : n ≤ 2 ^ 53) : toDouble n = n := by
  have hshort : |(n : Int)| ≤ 2 ^ 53 := by
    rw [Nat.abs_cast]
    exact_mod_cast hn
  simpa using toDouble_of_short (k := 0) hshort

/-- What has been rounded is not changed again. -/
theorem toDouble_toDouble (q : ℚ) : toDouble (toDouble q) = toDouble q := by
  have hshort : |roundHalfEven (q / spacing q)| ≤ 2 ^ 53 := by
    have hpos := spacing_pos q
    have hsmall : |q / spacing q| ≤ 2 ^ 53 := by
      rcases eq_or_ne q 0 with rfl | hq
      · simp
      · rw [abs_div, abs_of_pos hpos, div_le_iff₀ hpos]
        exact (spacing_bounds hq).2.le
    have hhalf := abs_roundHalfEven_sub_le (q / spacing q)
    have hle : |(roundHalfEven (q / spacing q) : ℚ)| < 2 ^ 53 + 1 := by
      have htriangle := abs_sub_abs_le_abs_sub (roundHalfEven (q / spacing q) : ℚ) (q / spacing q)
      linarith
    have hint : |roundHalfEven (q / spacing q)| < 2 ^ 53 + 1 := by exact_mod_cast hle
    omega
  exact toDouble_of_short hshort

/-! ## Several roundings -/

/-- `y` is the nonnegative number `x` after at most `k` roundings. -/
structure Rounded (k : Nat) (x y : ℚ) : Prop where
  nonneg : 0 ≤ x
  lower : x * (1 - roundoff) ^ k ≤ y
  upper : y ≤ x * (1 + roundoff) ^ k

namespace Rounded

variable {k l : Nat} {x y x' y' : ℚ}

theorem roundoff_pos : 0 < roundoff := by norm_num [roundoff]

theorem one_sub_roundoff_nonneg : 0 ≤ 1 - roundoff := by norm_num [roundoff]

theorem refl (hx : 0 ≤ x) : Rounded 0 x x := ⟨hx, by simp, by simp⟩

theorem nonneg_right (h : Rounded k x y) : 0 ≤ y :=
  (mul_nonneg h.nonneg (pow_nonneg one_sub_roundoff_nonneg k)).trans h.lower

theorem mul (h : Rounded k x y) (h' : Rounded l x' y') : Rounded (k + l) (x * x') (y * y') where
  nonneg := mul_nonneg h.nonneg h'.nonneg
  lower := by
    rw [pow_add, mul_mul_mul_comm]
    exact mul_le_mul h.lower h'.lower
      (mul_nonneg h'.nonneg (pow_nonneg one_sub_roundoff_nonneg l)) h.nonneg_right
  upper := by
    rw [pow_add, mul_mul_mul_comm]
    exact mul_le_mul h.upper h'.upper h'.nonneg_right (h.nonneg_right.trans h.upper)

/-- One rounding more. -/
theorem round (h : Rounded k x y) : Rounded (k + 1) x (toDouble y) := by
  have herror := abs_toDouble_sub_le y
  rw [abs_of_nonneg h.nonneg_right, abs_le] at herror
  have hlower := mul_le_mul_of_nonneg_right h.lower one_sub_roundoff_nonneg
  have hupper := mul_le_mul_of_nonneg_right h.upper (by linarith [roundoff_pos] : 0 ≤ 1 + roundoff)
  refine ⟨h.nonneg, ?_, ?_⟩
  · rw [pow_succ, ← mul_assoc]
    linarith
  · rw [pow_succ, ← mul_assoc]
    linarith

/-- The error of `k` roundings is largest if all of them are up. -/
theorem abs_sub_le (h : Rounded k x y) : |y - x| ≤ x * ((1 + roundoff) ^ k - 1) := by
  have hdown : 1 + k * -roundoff ≤ (1 + -roundoff) ^ k :=
    one_add_mul_le_pow (by norm_num [roundoff]) k
  have hup : 1 + k * roundoff ≤ (1 + roundoff) ^ k := one_add_mul_le_pow (by norm_num [roundoff]) k
  have hsmaller : 1 - (1 - roundoff) ^ k ≤ (1 + roundoff) ^ k - 1 := by
    rw [← sub_eq_add_neg] at hdown
    linarith
  have hlower := mul_le_mul_of_nonneg_left hsmaller h.nonneg
  have hl := h.lower
  have hu := h.upper
  rw [abs_le]
  constructor <;> linarith

end Rounded

end VideoMatch.Cxx
