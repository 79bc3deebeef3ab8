import Mathlib.Data.Int.Log
import Mathlib.Data.Rat.Floor
import Mathlib.Tactic.Linarith

/-!
# Rounding to binary64

A finite binary64 number is a rational `m * 2 ^ e` with `|m| ≤ 2 ^ 53` and
`-1074 ≤ e`.  An arithmetic operation on two of them is the exact operation
followed by `round`, the rounding to the nearest such number with ties to even.
This holds below the overflow threshold `2 ^ 1024`, and nothing here goes near
it.

`round_intCast` says that the integers below `2 ^ 53` are exact, and
`round_le_intCast` that rounding does not go past them.  `abs_round_sub_le` bounds the
error by half of the last place, so that numbers further apart stay apart
(`round_lt_round`), and `round_mono` says that rounding keeps the order of numbers that
are not negative.
-/

namespace Number.Binary64

/-- The nearest integer, the even one of two. -/
def roundHalfEven (x : ℚ) : ℤ :=
  if x - ⌊x⌋ < 1 / 2 then ⌊x⌋
  else if 1 / 2 < x - ⌊x⌋ then ⌊x⌋ + 1
  else if ⌊x⌋ % 2 = 0 then ⌊x⌋
  else ⌊x⌋ + 1

/-- The exponent of the last place of the numbers next to `x`. -/
def ulpExponent (x : ℚ) : ℤ := max (Int.log 2 |x| - 52) (-1074)

/-- The binary64 number nearest to `x`, with ties to even. -/
def round (x : ℚ) : ℚ := roundHalfEven (x / 2 ^ ulpExponent x) * 2 ^ ulpExponent x

theorem roundHalfEven_intCast (n : ℤ) : roundHalfEven n = n := by
  simp [roundHalfEven]

/-- Rounding does not go past an integer. -/
theorem roundHalfEven_le {x : ℚ} {n : ℤ} (h : x ≤ n) : roundHalfEven x ≤ n := by
  have hfloor : ⌊x⌋ ≤ n := Int.floor_le_iff.mpr (by linarith)
  rcases hfloor.lt_or_eq with hlt | heq
  · unfold roundHalfEven
    split_ifs <;> omega
  · have hx : x - ⌊x⌋ < 1 / 2 := by
      rw [heq]
      linarith
    rw [roundHalfEven, if_pos hx, heq]

/-- An integer multiple of the last place is exact. -/
theorem round_eq_of_mul {x : ℚ} {n : ℤ} (h : x = n * 2 ^ ulpExponent x) : round x = x := by
  have hpos : (2 : ℚ) ^ ulpExponent x ≠ 0 := zpow_ne_zero _ two_ne_zero
  have hdiv : x / 2 ^ ulpExponent x = n := by rw [div_eq_iff hpos]; exact h
  rw [round, hdiv, roundHalfEven_intCast, ← h]

theorem ulpExponent_nonpos {x : ℚ} (h : |x| < 2 ^ 53) : ulpExponent x ≤ 0 := by
  have hlog : Int.log 2 |x| ≤ 52 := by
    rcases eq_or_ne x 0 with rfl | hx
    · simp
    · have hlt : |x| < ((2 : ℕ) : ℚ) ^ (53 : ℤ) := by exact_mod_cast h
      have := (Int.lt_zpow_iff_log_lt Nat.one_lt_two (abs_pos.mpr hx)).mp hlt
      omega
  unfold ulpExponent
  omega

/-- Next to numbers below `2 ^ 53` every integer is a multiple of the last
place. -/
theorem exists_intCast_eq_mul {x : ℚ} (h : |x| < 2 ^ 53) (n : ℤ) :
    ∃ m : ℤ, (n : ℚ) = m * 2 ^ ulpExponent x := by
  have hexp := ulpExponent_nonpos h
  obtain ⟨k, hk⟩ : ∃ k : ℕ, ulpExponent x = -(k : ℤ) := ⟨(-ulpExponent x).toNat, by omega⟩
  refine ⟨n * 2 ^ k, ?_⟩
  rw [hk, zpow_neg, zpow_natCast]
  push_cast
  field_simp

theorem abs_intCast_lt {n : ℤ} (h : |n| < 2 ^ 53) : |(n : ℚ)| < 2 ^ 53 := by exact_mod_cast h

/-- Integers below `2 ^ 53` are binary64 numbers. -/
theorem round_intCast {n : ℤ} (h : |n| < 2 ^ 53) : round n = n := by
  obtain ⟨m, hm⟩ := exists_intCast_eq_mul (abs_intCast_lt h) n
  exact round_eq_of_mul hm

/-- Rounding does not go past an integer below `2 ^ 53`. -/
theorem round_le_intCast {x : ℚ} {n : ℤ} (h : |x| < 2 ^ 53) (hle : x ≤ n) : round x ≤ n := by
  obtain ⟨m, hm⟩ := exists_intCast_eq_mul h n
  have hpos : (0 : ℚ) < 2 ^ ulpExponent x := zpow_pos two_pos _
  rw [round, hm, mul_le_mul_iff_left₀ hpos]
  exact_mod_cast roundHalfEven_le ((div_le_iff₀ hpos).mpr (hm ▸ hle))

theorem round_nonneg {x : ℚ} (h : 0 ≤ x) : 0 ≤ round x := by
  have hpos : (0 : ℚ) < 2 ^ ulpExponent x := zpow_pos two_pos _
  have hfloor : 0 ≤ ⌊x / 2 ^ ulpExponent x⌋ := Int.floor_nonneg.mpr (div_nonneg h hpos.le)
  refine mul_nonneg (Int.cast_nonneg ?_) hpos.le
  unfold roundHalfEven
  split_ifs <;> omega

/-! ## Error -/

theorem abs_roundHalfEven_sub_le (x : ℚ) : |(roundHalfEven x : ℚ) - x| ≤ 1 / 2 := by
  have hle := Int.floor_le x
  have hlt := Int.lt_floor_add_one x
  unfold roundHalfEven
  split_ifs <;> rw [abs_le] <;> push_cast <;> constructor <;> linarith

/-- Rounding is off by half of the last place at most. -/
theorem abs_round_sub_le (x : ℚ) : |round x - x| ≤ 2 ^ ulpExponent x / 2 := by
  have hpos : (0 : ℚ) < 2 ^ ulpExponent x := zpow_pos two_pos _
  have hsub : round x - x =
      (roundHalfEven (x / 2 ^ ulpExponent x) - x / 2 ^ ulpExponent x) * 2 ^ ulpExponent x := by
    rw [round, sub_mul, div_mul_cancel₀ _ hpos.ne']
  rw [hsub, abs_mul, abs_of_pos hpos]
  calc _ ≤ 1 / 2 * 2 ^ ulpExponent x :=
        mul_le_mul_of_nonneg_right (abs_roundHalfEven_sub_le _) hpos.le
    _ = 2 ^ ulpExponent x / 2 := by ring

theorem ulpExponent_le {x : ℚ} {e : ℤ} (hx : x ≠ 0) (h : |x| < 2 ^ (e + 53)) (he : -1074 ≤ e) :
    ulpExponent x ≤ e := by
  have hlog := (Int.lt_zpow_iff_log_lt Nat.one_lt_two (abs_pos.mpr hx)).mp (by exact_mod_cast h)
  unfold ulpExponent
  omega

theorem round_zero : round 0 = 0 := by exact_mod_cast round_intCast (n := 0) (by decide)

theorem abs_round_sub_le_of_lt {x : ℚ} {e : ℤ} (h : |x| < 2 ^ (e + 53)) (he : -1074 ≤ e) :
    |round x - x| ≤ 2 ^ e / 2 := by
  rcases eq_or_ne x 0 with rfl | hx
  · rw [round_zero, sub_zero, abs_zero]
    exact div_nonneg (zpow_nonneg zero_le_two _) zero_le_two
  · refine (abs_round_sub_le x).trans (div_le_div_of_nonneg_right ?_ zero_le_two)
    exact zpow_le_zpow_right₀ one_le_two (ulpExponent_le hx h he)

/-- Numbers that are further apart than a place stay apart. -/
theorem round_lt_round {x y : ℚ} {e : ℤ} (hx : |x| < 2 ^ (e + 53)) (hy : |y| < 2 ^ (e + 53))
    (he : -1074 ≤ e) (h : x + 2 ^ e < y) : round x < round y := by
  have hx := abs_le.mp (abs_round_sub_le_of_lt hx he)
  have hy := abs_le.mp (abs_round_sub_le_of_lt hy he)
  linarith

/-! ## Monotonicity -/

theorem roundHalfEven_mono {x y : ℚ} (h : x ≤ y) : roundHalfEven x ≤ roundHalfEven y := by
  rcases (Int.floor_mono h).lt_or_eq with hlt | heq
  · unfold roundHalfEven
    split_ifs <;> omega
  · unfold roundHalfEven
    rw [heq]
    split_ifs <;> first | omega | linarith

/-- Rounding does not go below an integer. -/
theorem le_roundHalfEven {x : ℚ} {n : ℤ} (h : n ≤ x) : n ≤ roundHalfEven x := by
  rw [← roundHalfEven_intCast n]
  exact roundHalfEven_mono h

theorem ulpExponent_mono {x y : ℚ} (hx : 0 < x) (h : x ≤ y) : ulpExponent x ≤ ulpExponent y := by
  have hlog : Int.log 2 |x| ≤ Int.log 2 |y| := by
    rw [abs_of_pos hx, abs_of_pos (hx.trans_le h)]
    exact Int.log_mono_right hx h
  unfold ulpExponent
  omega

theorem lt_zpow_ulpExponent {x : ℚ} (hx : 0 < x) : x < 2 ^ (ulpExponent x + 53) := by
  have hlt : x < 2 ^ (Int.log 2 x + 1) := by
    exact_mod_cast Int.lt_zpow_succ_log_self Nat.one_lt_two x
  refine hlt.trans_le (zpow_le_zpow_right₀ one_le_two ?_)
  unfold ulpExponent
  rw [abs_of_pos hx]
  omega

theorem zpow_ulpExponent_le {x : ℚ} (hx : 0 < x) (h : -1074 < ulpExponent x) :
    2 ^ (ulpExponent x + 52) ≤ x := by
  have hle : (2 : ℚ) ^ Int.log 2 x ≤ x := by
    exact_mod_cast Int.zpow_log_le_self Nat.one_lt_two hx
  refine le_trans (zpow_le_zpow_right₀ one_le_two ?_) hle
  unfold ulpExponent at h ⊢
  rw [abs_of_pos hx] at h ⊢
  omega

/-- A power of two above the last place is a multiple of it. -/
theorem exists_zpow_eq_mul {e f : ℤ} (h : f ≤ e) :
    ∃ n : ℤ, (2 : ℚ) ^ e / 2 ^ f = n := by
  obtain ⟨k, rfl⟩ := Int.le.dest h
  refine ⟨2 ^ k, ?_⟩
  rw [zpow_add₀ two_ne_zero, mul_div_cancel_left₀ _ (zpow_ne_zero _ two_ne_zero)]
  push_cast
  exact zpow_natCast _ _

/-- Rounding keeps the order of numbers that are not negative. -/
theorem round_mono {x y : ℚ} (hx : 0 ≤ x) (h : x ≤ y) : round x ≤ round y := by
  rcases hx.eq_or_lt with rfl | hx
  · rw [round_zero]
    exact round_nonneg h
  · have hposx : (0 : ℚ) < 2 ^ ulpExponent x := zpow_pos two_pos _
    have hposy : (0 : ℚ) < 2 ^ ulpExponent y := zpow_pos two_pos _
    rcases (ulpExponent_mono hx h).lt_or_eq with hlt | heq
    · -- a power of two lies between them, and both have it as a multiple
      have hmin : -1074 ≤ ulpExponent x := le_max_right _ _
      have hbelow : x ≤ 2 ^ (ulpExponent y + 52) :=
        (lt_zpow_ulpExponent hx).le.trans (zpow_le_zpow_right₀ one_le_two (by omega))
      have habove := zpow_ulpExponent_le (hx.trans_le h) (by omega)
      obtain ⟨n, hn⟩ := exists_zpow_eq_mul (e := ulpExponent y + 52) (f := ulpExponent x) (by omega)
      obtain ⟨m, hm⟩ := exists_zpow_eq_mul (e := ulpExponent y + 52) (f := ulpExponent y) (by omega)
      calc round x ≤ n * 2 ^ ulpExponent x := by
            refine mul_le_mul_of_nonneg_right (Int.cast_le.mpr (roundHalfEven_le ?_)) hposx.le
            rw [← hn]
            exact div_le_div_of_nonneg_right hbelow hposx.le
        _ = m * 2 ^ ulpExponent y := by
            rw [← hn, ← hm, div_mul_cancel₀ _ hposx.ne', div_mul_cancel₀ _ hposy.ne']
        _ ≤ round y := by
            refine mul_le_mul_of_nonneg_right (Int.cast_le.mpr (le_roundHalfEven ?_)) hposy.le
            rw [← hm]
            exact div_le_div_of_nonneg_right habove hposy.le
    · rw [round, round, heq]
      refine mul_le_mul_of_nonneg_right (Int.cast_le.mpr (roundHalfEven_mono ?_)) hposy.le
      exact div_le_div_of_nonneg_right h hposy.le

end Number.Binary64
