import Pfsim.Main
import Pfsim.Rounding
import Pfsim.Simulator

/-!
# The results

What the program prints (`Report`). The averages of `Stat_printStats` are computed in `float`s,
of 24 significant bits, and printed with `%f`, to 6 decimals. The counters are taken without
the wrap of 64 bits; as long as they keep within these, no exponent here is out of the range
of a `float`.

* `Report.amu_near`, `Report.arp_near`: the averages printed are those of the counters, to
  within a millionth.
-/

namespace Pfsim

open Rounding

/-- What the program prints: its parameters, and the results of `Stat_printStats` before they
    are made into averages. -/
structure Report where
  filename : List Char
  pagesize : ℤ
  /-- The memory size, in megabytes. -/
  memsize : ℤ
  numberOfPhysicalPages : ℤ
  stat : Stat
  /-- `Memory_getTotalSize`, in pages. -/
  totalSize : ℕ
  exitTime : ℕ
  /-- The messages of the simulation. -/
  stderr : List String

/-- The conversion to `float`, and the result of an operation on `float`s. -/
def toFloat (x : ℚ) : ℚ := toBits 24 x

namespace Report

variable (rep : Report)

/-- The average memory utilisation, as it is printed. (If no time has passed, it is not a
    number.) -/
def amu : ℚ :=
  let amu := toFloat (toFloat rep.stat.tmu / toFloat rep.exitTime)
  toDecimals 6 (toFloat (amu / toFloat rep.totalSize))

/-- The average number of runnable processes, as it is printed. -/
def arp : ℚ := toDecimals 6 (toFloat (toFloat rep.stat.trp / toFloat rep.exitTime))

end Report

/-- The smallest and the largest factor by which a conversion is wrong. -/
theorem toFloat_near {x : ℚ} (hx : 0 ≤ x) : Near (1 - 1 / 2 ^ 24) (1 + 1 / 2 ^ 24) (toFloat x) x :=
  toBits_near 24 hx

/-- The quotient of two counters. -/
theorem toFloat_div_near {x y z : ℚ} {a b : ℚ} (ha : 0 ≤ a) (hy : 0 ≤ y) (hz : 0 < z)
    (h : Near a b x y) :
    Near ((1 - 1 / 2 ^ 24) * (a / (1 + 1 / 2 ^ 24))) ((1 + 1 / 2 ^ 24) * (b / (1 - 1 / 2 ^ 24)))
      (toFloat (x / toFloat z)) (y / z) := by
  have hdiv := h.div ha (by norm_num) hy hz (toFloat_near hz.le)
  have hnonneg : 0 ≤ x / toFloat z := by
    refine le_trans (mul_nonneg (div_nonneg ha ?_) (div_nonneg hy hz.le)) hdiv.ge
    norm_num
  exact (toFloat_near hnonneg).trans (by norm_num) (by norm_num) hdiv

/-- A number printed, if it was computed with a small error. -/
theorem abs_toDecimals_sub_lt {x y : ℚ} (h : |x - y| ≤ 1 / 2 ^ 21) :
    |toDecimals 6 x - y| < 1 / 10 ^ 6 := by
  calc |toDecimals 6 x - y| ≤ |toDecimals 6 x - x| + |x - y| := abs_sub_le _ _ _
    _ ≤ 1 / (2 * 10 ^ 6) + 1 / 2 ^ 21 := add_le_add (abs_toDecimals_sub_le 6 x) h
    _ < 1 / 10 ^ 6 := by norm_num

/-- It is a proper average if the number is. -/
theorem toDecimals_mem {x y : ℚ} (h : |toDecimals 6 x - y| < 1 / 10 ^ 6) (hy : 0 ≤ y)
    (hy1 : y ≤ 1) : 0 ≤ toDecimals 6 x ∧ toDecimals 6 x ≤ 1 := by
  obtain ⟨hlo, hhi⟩ := abs_lt.1 h
  constructor
  · exact_mod_cast le_toDecimals (k := 0) (by push_cast; linarith)
  · exact_mod_cast toDecimals_le (k := 1) (by push_cast; linarith)

namespace Report

variable (rep : Report)

/-- The average memory utilisation printed is that of the counters, to within a millionth. -/
theorem amu_near (hpos : 0 < rep.exitTime) (hsize : 0 < rep.totalSize)
    (hle : rep.stat.tmu ≤ rep.totalSize * rep.exitTime) :
    |rep.amu - rep.stat.tmu / (rep.exitTime * rep.totalSize)| < 1 / 10 ^ 6 ∧
      0 ≤ rep.amu ∧ rep.amu ≤ 1 := by
  have htime : (0 : ℚ) < rep.exitTime := by exact_mod_cast hpos
  have htotal : (0 : ℚ) < rep.totalSize := by exact_mod_cast hsize
  have hq : (0 : ℚ) ≤ rep.stat.tmu / rep.exitTime / rep.totalSize := by positivity
  have hq1 : (rep.stat.tmu / rep.exitTime / rep.totalSize : ℚ) ≤ 1 := by
    rw [div_div, div_le_one (by positivity), mul_comm]
    exact_mod_cast hle
  -- Five roundings: of the three counters, and of the two quotients.
  have h₁ := toFloat_near (Nat.cast_nonneg (α := ℚ) rep.stat.tmu)
  have h₂ := toFloat_div_near (by norm_num) (Nat.cast_nonneg _) htime h₁
  have h₃ := toFloat_div_near (by norm_num) (by positivity) htotal h₂
  have hnear := abs_toDecimals_sub_lt
    (h₃.abs_sub_le (e := 1 / 2 ^ 21) (by norm_num) (by norm_num) (by norm_num) hq hq1)
  rw [← div_div]
  exact ⟨hnear, toDecimals_mem hnear hq hq1⟩

theorem arp_near (hpos : 0 < rep.exitTime) (hle : rep.stat.trp ≤ rep.exitTime) :
    |rep.arp - rep.stat.trp / rep.exitTime| < 1 / 10 ^ 6 ∧ 0 ≤ rep.arp ∧ rep.arp ≤ 1 := by
  have htime : (0 : ℚ) < rep.exitTime := by exact_mod_cast hpos
  have hq : (0 : ℚ) ≤ rep.stat.trp / rep.exitTime := by positivity
  have hq1 : (rep.stat.trp / rep.exitTime : ℚ) ≤ 1 := (div_le_one htime).2 (by exact_mod_cast hle)
  have h₁ := toFloat_near (Nat.cast_nonneg (α := ℚ) rep.stat.trp)
  have h₂ := toFloat_div_near (by norm_num) (Nat.cast_nonneg _) htime h₁
  have hnear := abs_toDecimals_sub_lt
    (h₂.abs_sub_le (e := 1 / 2 ^ 21) (by norm_num) (by norm_num) (by norm_num) hq hq1)
  exact ⟨hnear, toDecimals_mem hnear hq hq1⟩

end Report

end Pfsim
