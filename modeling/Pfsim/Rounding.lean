import Mathlib.Data.Int.Log
import Mathlib.Data.Rat.Floor
import Mathlib.Tactic.Linarith
import Mathlib.Tactic.Positivity

/-!
# Rounding

Rational numbers, rounded to the nearest among those of a given number of significant bits
(`toBits`), as binary floating-point arithmetic does, and of a given number of decimals
(`toDecimals`), as printing does. Of two nearest numbers the one with the even last digit is
taken. The exponents are not bounded: numbers neither overflow nor become subnormal.

* `abs_toDecimals_sub_le`: the error of a number printed;
* `toBits_near`: the relative error of a number rounded;
* `Near.trans`, `Near.div`: relative errors compose.
-/

namespace Rounding

/-- The nearest integer, the even one of two. -/
def nearest (x : ℚ) : ℤ :=
  if x - ⌊x⌋ < 1 / 2 ∨ x - ⌊x⌋ = 1 / 2 ∧ Even ⌊x⌋ then ⌊x⌋ else ⌊x⌋ + 1

/-- The nearest number of `n` significant bits. -/
def toBits (n : ℕ) (x : ℚ) : ℚ :=
  if x = 0 then 0 else nearest (x / 2 ^ (Int.log 2 |x| - n + 1)) * 2 ^ (Int.log 2 |x| - n + 1)

/-- The nearest number of `n` decimals. -/
def toDecimals (n : ℕ) (x : ℚ) : ℚ := nearest (x * 10 ^ n) / 10 ^ n

variable {a b c d x y z w : ℚ} {n : ℕ}

/-- It is at most a half away. -/
theorem abs_nearest_sub_le (x : ℚ) : |(nearest x : ℚ) - x| ≤ 1 / 2 := by
  have hlo := Int.floor_le x
  have hhi := Int.lt_floor_add_one x
  rw [nearest]
  split_ifs with h
  · have hx : x - ⌊x⌋ ≤ 1 / 2 := h.elim le_of_lt fun h => h.1.le
    rw [abs_le]
    constructor <;> linarith
  · have hx : 1 / 2 ≤ x - ⌊x⌋ := not_lt.1 fun hx => h (.inl hx)
    push_cast
    rw [abs_le]
    constructor <;> linarith

/-! ## Decimals -/

/-- A number is printed with an error of half a unit of its last decimal. -/
theorem abs_toDecimals_sub_le (n : ℕ) (x : ℚ) : |toDecimals n x - x| ≤ 1 / (2 * 10 ^ n) := by
  have hpow : (0 : ℚ) < 10 ^ n := by positivity
  have hdiff : toDecimals n x - x = (nearest (x * 10 ^ n) - x * 10 ^ n) / 10 ^ n := by
    rw [toDecimals, sub_div, mul_div_cancel_right₀ _ hpow.ne']
  rw [hdiff, abs_div, abs_of_pos hpow, ← div_div]
  exact div_le_div_of_nonneg_right (abs_nearest_sub_le _) hpow.le

/-- What is printed is an integer number of units of the last decimal. -/
theorem exists_toDecimals (n : ℕ) (x : ℚ) : ∃ k : ℤ, toDecimals n x * 10 ^ n = k :=
  ⟨_, div_mul_cancel₀ _ (by positivity)⟩

/-- So it is not short of an integer by less than a unit. -/
theorem le_toDecimals {k : ℤ} (h : k - 1 / 10 ^ n < toDecimals n x) : k ≤ toDecimals n x := by
  have hpow : (0 : ℚ) < 10 ^ n := by positivity
  obtain ⟨j, hj⟩ := exists_toDecimals n x
  have hlt : (k : ℚ) * 10 ^ n < j + 1 := by
    rw [← hj, ← sub_lt_iff_lt_add]
    calc (k : ℚ) * 10 ^ n - 1 = (k - 1 / 10 ^ n) * 10 ^ n := by
          rw [sub_mul, div_mul_cancel₀ _ hpow.ne']
      _ < toDecimals n x * 10 ^ n := mul_lt_mul_of_pos_right h hpow
  have hle : k * 10 ^ n ≤ j := Int.lt_add_one_iff.1 (by exact_mod_cast hlt)
  refine le_of_mul_le_mul_right ?_ hpow
  rw [hj]
  exact_mod_cast hle

/-- Nor does it exceed one by less than a unit. -/
theorem toDecimals_le {k : ℤ} (h : toDecimals n x < k + 1 / 10 ^ n) : toDecimals n x ≤ k := by
  have hpow : (0 : ℚ) < 10 ^ n := by positivity
  obtain ⟨j, hj⟩ := exists_toDecimals n x
  have hlt : (j : ℚ) < k * 10 ^ n + 1 := by
    rw [← hj]
    calc toDecimals n x * 10 ^ n < (k + 1 / 10 ^ n) * 10 ^ n := mul_lt_mul_of_pos_right h hpow
      _ = k * 10 ^ n + 1 := by rw [add_mul, div_mul_cancel₀ _ hpow.ne']
  have hle : j ≤ k * 10 ^ n := Int.lt_add_one_iff.1 (by exact_mod_cast hlt)
  refine le_of_mul_le_mul_right ?_ hpow
  rw [hj]
  exact_mod_cast hle

/-! ## Relative errors -/

/-- `x` is `y`, but for a factor between `a` and `b`. -/
structure Near (a b x y : ℚ) : Prop where
  ge : a * y ≤ x
  le : x ≤ b * y

theorem Near.trans (ha : 0 ≤ a) (hb : 0 ≤ b) (h : Near a b x y) (h' : Near c d y z) :
    Near (a * c) (b * d) x z where
  ge := by
    rw [mul_assoc]
    exact (mul_le_mul_of_nonneg_left h'.ge ha).trans h.ge
  le := by
    rw [mul_assoc]
    exact h.le.trans (mul_le_mul_of_nonneg_left h'.le hb)

/-- The relative error of a quotient. -/
theorem Near.div (ha : 0 ≤ a) (hc : 0 < c) (hy : 0 ≤ y) (hw : 0 < w) (h : Near a b x y)
    (h' : Near c d z w) : Near (a / d) (b / c) (x / z) (y / w) := by
  have hz : 0 < z := (mul_pos hc hw).trans_le h'.ge
  have hx : 0 ≤ x := (mul_nonneg ha hy).trans h.ge
  constructor
  · calc a / d * (y / w) = a * y / (d * w) := by rw [div_mul_div_comm]
      _ ≤ x / z := div_le_div₀ hx h.ge hz h'.le
  · calc x / z ≤ b * y / (c * w) := div_le_div₀ (hx.trans h.le) h.le (mul_pos hc hw) h'.ge
      _ = b / c * (y / w) := by rw [div_mul_div_comm]

/-- The error itself, of a number between 0 and 1. -/
theorem Near.abs_sub_le {e : ℚ} (h : Near a b x y) (ha : 1 - e ≤ a) (hb : b ≤ 1 + e)
    (he : 0 ≤ e) (hy : 0 ≤ y) (hy1 : y ≤ 1) : |x - y| ≤ e := by
  have hey : e * y ≤ e := mul_le_of_le_one_right he hy1
  have hlo : (1 - e) * y ≤ x := (mul_le_mul_of_nonneg_right ha hy).trans h.ge
  have hhi : x ≤ (1 + e) * y := h.le.trans (mul_le_mul_of_nonneg_right hb hy)
  rw [sub_mul, one_mul] at hlo
  rw [add_mul, one_mul] at hhi
  rw [abs_le]
  constructor <;> linarith

/-- A number is rounded to `n` bits with a relative error of half a unit of the last one. -/
theorem abs_toBits_sub_le (n : ℕ) (x : ℚ) : |toBits n x - x| ≤ |x| / 2 ^ n := by
  by_cases hx : x = 0
  · rw [hx, toBits, if_pos rfl, sub_zero, abs_zero, zero_div]
  have hpow : (0 : ℚ) < 2 ^ (Int.log 2 |x| - n + 1) := zpow_pos two_pos _
  have hdiff : toBits n x - x = (nearest (x / 2 ^ (Int.log 2 |x| - n + 1)) -
      x / 2 ^ (Int.log 2 |x| - n + 1)) * 2 ^ (Int.log 2 |x| - n + 1) := by
    rw [toBits, if_neg hx, sub_mul, div_mul_cancel₀ _ hpow.ne']
  have hlog : (2 : ℚ) ^ Int.log 2 |x| ≤ |x| := by
    exact_mod_cast Int.zpow_log_le_self one_lt_two (abs_pos.2 hx)
  calc |toBits n x - x| ≤ 1 / 2 * 2 ^ (Int.log 2 |x| - n + 1) := by
        rw [hdiff, abs_mul, abs_of_pos hpow]
        exact mul_le_mul_of_nonneg_right (abs_nearest_sub_le _) hpow.le
    _ = 2 ^ Int.log 2 |x| / 2 ^ n := by
        rw [zpow_add_one₀ two_ne_zero, zpow_sub₀ two_ne_zero, zpow_natCast]
        ring
    _ ≤ |x| / 2 ^ n := div_le_div_of_nonneg_right hlog (by positivity)

/-- The same, as factors. -/
theorem toBits_near (n : ℕ) (hx : 0 ≤ x) : Near (1 - 1 / 2 ^ n) (1 + 1 / 2 ^ n) (toBits n x) x := by
  have h := abs_le.1 (abs_toBits_sub_le n x)
  rw [abs_of_nonneg hx] at h
  have hmul : 1 / 2 ^ n * x = x / 2 ^ n := by rw [one_div, inv_mul_eq_div]
  constructor
  · rw [sub_mul, one_mul, hmul]
    linarith [h.1]
  · rw [add_mul, one_mul, hmul]
    linarith [h.2]

end Rounding
