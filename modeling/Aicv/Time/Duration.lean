import Aicv.Number.Binary64

/-!
# Durations

`time.Duration` is a 64-bit number of nanoseconds, and its arithmetic wraps.  An
instant, a `time.Time`, is an integer number of nanoseconds, since adding a
duration to the clock does not wrap.
-/

namespace Aicv

open Number

/-- `time.Duration`, in nanoseconds. -/
abbrev Duration := Int64

namespace Duration

/-- `time.Second`. -/
def second : Duration := 1000000000

/-- `d.Seconds()`: the whole seconds and the rest are converted and divided in
`float64`. -/
def seconds (d : Duration) : ℚ :=
  Binary64.round (Binary64.round (d / second).toInt +
    Binary64.round (Binary64.round (d % second).toInt / Binary64.round 1000000000))

theorem toInt_second : second.toInt = 1000000000 := rfl

theorem toInt_div_second (d : Duration) : (d / second).toInt = d.toInt.tdiv 1000000000 :=
  Int64.toInt_div_of_ne_right d second (by decide)

theorem toInt_mod_second (d : Duration) : (d % second).toInt = d.toInt.tmod 1000000000 := by
  rw [Int64.toInt_mod, toInt_second]

/-- Whole seconds are exact. -/
theorem seconds_of_dvd {d : Duration} {n : ℤ} (h : d.toInt = n * 1000000000) : d.seconds = n := by
  have hlt := d.toInt_lt
  have hle := d.le_toInt
  have hn : |n| < 2 ^ 53 := abs_lt.mpr ⟨by omega, by omega⟩
  have hdiv : (d / second).toInt = n := by
    rw [toInt_div_second, h, Int.mul_tdiv_cancel _ (by decide)]
  have hmod : (d % second).toInt = 0 := by
    rw [toInt_mod_second, h, Int.mul_tmod_left]
  have hzero : Binary64.round 0 = 0 := by
    exact_mod_cast Binary64.round_intCast (n := 0) (by decide)
  simp only [seconds, hdiv, hmod, Int.cast_zero, hzero, zero_div, add_zero,
    Binary64.round_intCast hn]

/-- Rounded or not, a duration has at most one second more than its whole
seconds. -/
theorem seconds_le {d : Duration} (h : 0 ≤ d.toInt) :
    d.seconds ≤ (d.toInt / 1000000000 + 1 : ℤ) := by
  have hlt := d.toInt_lt
  have hdiv : (d / second).toInt = d.toInt / 1000000000 := by
    rw [toInt_div_second, Int.tdiv_eq_ediv_of_nonneg h]
  have hmod : (d % second).toInt = d.toInt % 1000000000 := by
    rw [toInt_mod_second, Int.tmod_eq_emod_of_nonneg h]
  set q := d.toInt / 1000000000 with hq
  set r := d.toInt % 1000000000 with hr
  have hr0 : (0 : ℚ) ≤ r / 1000000000 :=
    div_nonneg (Int.cast_nonneg (by omega)) (by norm_num)
  have hr1 : (r / 1000000000 : ℚ) ≤ (1 : ℤ) := by
    rw [div_le_iff₀ (by norm_num)]
    exact_mod_cast (show r ≤ 1 * 1000000000 by omega)
  have hround : Binary64.round (r / 1000000000) ≤ (1 : ℤ) :=
    Binary64.round_le_intCast (abs_lt.mpr ⟨by linarith, by push_cast at hr1; linarith⟩) hr1
  have hround0 := Binary64.round_nonneg hr0
  have hsec : Binary64.round 1000000000 = 1000000000 := by
    exact_mod_cast Binary64.round_intCast (n := 1000000000) (by decide)
  rw [seconds, hdiv, hmod, Binary64.round_intCast (abs_lt.mpr ⟨by omega, by omega⟩),
    Binary64.round_intCast (abs_lt.mpr ⟨by omega, by omega⟩), hsec]
  have hq0 : (0 : ℚ) ≤ q := Int.cast_nonneg (by omega)
  have hq1 : (q : ℚ) ≤ 9223372036 := by exact_mod_cast (show q ≤ 9223372036 by omega)
  push_cast at hround ⊢
  refine (Binary64.round_le_intCast (n := q + 1) (abs_lt.mpr ⟨?_, ?_⟩) ?_).trans_eq ?_
  · linarith
  · linarith
  · push_cast
    linarith
  · push_cast
    rfl

end Duration

end Aicv
