import Calculator.Binary64
import Calculator.Proofs.Quotient

/-!
# Rounding to doubles

The code nearest to a quotient is a function of its value, it is the code itself for the magnitude
of a finite code, and it is that of infinity or of zero far outside the range of doubles.

* `nearestCode_congr`: rounding sees nothing but the value
* `nearestCode_magnitude`: rounding a double changes nothing
* `nearestCode_of_great`, `nearestCode_of_small`: overflow and underflow
-/

namespace Calculator.Binary64

/-- The exponent of the grid that a number is rounded to. -/
def gridOf (x : ℚ) : ℤ := max (Int.log 2 x - 52) (-1074)

theorem nearestCode_eq {r : Ratio} (h : r.num ≠ 0) :
    nearestCode r = min infinityCode
      (halfEven (r.toRat * 2 ^ (-gridOf r.toRat)) + blockSize * (gridOf r.toRat + 1074).toNat) := by
  have hgrid : gridExponent r = gridOf r.toRat := by rw [gridExponent, gridOf, Ratio.log2_eq h]
  rw [nearestCode, if_neg h]
  show min infinityCode ((r.scale 2 (-gridExponent r)).nearest +
    blockSize * (gridExponent r + 1074).toNat) = _
  rw [Ratio.nearest_eq, Ratio.toRat_scale, hgrid, Nat.cast_ofNat]

theorem nearestCode_of_num_eq_zero {r : Ratio} (h : r.num = 0) : nearestCode r = 0 := if_pos h

theorem nearestCode_congr {r r' : Ratio} (h : r.toRat = r'.toRat) :
    nearestCode r = nearestCode r' := by
  have hzero : r.num = 0 ↔ r'.num = 0 := by
    rw [← Ratio.toRat_eq_zero_iff, ← Ratio.toRat_eq_zero_iff, h]
  by_cases hr : r.num = 0
  · rw [nearestCode_of_num_eq_zero hr, nearestCode_of_num_eq_zero (hzero.mp hr)]
  · rw [nearestCode_eq hr, nearestCode_eq fun h' => hr (hzero.mpr h'), h]

/-! ## Doubles -/

theorem toRat_magnitude (n : ℕ) : (magnitude n).toRat = significand n * 2 ^ exponent n := by
  rw [magnitude, Ratio.toRat_scale, Ratio.toRat_ofNat, Nat.cast_ofNat]

/-- A whole number of units of the grid that fits its place is rounded to itself. -/
theorem nearestCode_of_toRat_eq {r : Ratio} {m : ℕ} {q : ℤ} (hm : m ≠ 0)
    (hr : r.toRat = m * 2 ^ q) (hgrid : gridOf r.toRat = q) :
    nearestCode r = min infinityCode (m + blockSize * (q + 1074).toNat) := by
  have hscaled : r.toRat * 2 ^ (-q) = m := by
    rw [hr, mul_assoc, ← zpow_add₀ two_ne_zero, add_neg_cancel, zpow_zero, mul_one]
  have hnum : r.num ≠ 0 := by
    intro hzero
    rw [Ratio.toRat_eq_zero_iff.mpr hzero] at hscaled
    rw [zero_mul] at hscaled
    exact hm (by exact_mod_cast hscaled.symm)
  rw [nearestCode_eq hnum, hgrid, hscaled, halfEven_natCast]

/-- The grid of a number that is at most 53 binary digits long on it is not finer. -/
theorem gridOf_eq {m : ℕ} {q : ℤ} (hm : m ≠ 0) (hlt : m < 2 ^ 53) (hq : -1074 ≤ q)
    (hlead : 2 ^ 52 ≤ m ∨ q = -1074) : gridOf (m * 2 ^ q) = q := by
  have hpower : ∀ k : ℕ, (2 : ℚ) ^ (k + q) = (2 ^ k : ℕ) * 2 ^ q := by
    intro k
    rw [zpow_add₀ two_ne_zero, zpow_natCast, Nat.cast_pow, Nat.cast_ofNat]
  have hunit : (0 : ℚ) < 2 ^ q := zpow_pos two_pos q
  have hpos : (0 : ℚ) < m * 2 ^ q := mul_pos (by exact_mod_cast Nat.pos_of_ne_zero hm) hunit
  have hhigh : Int.log 2 (m * 2 ^ q : ℚ) < (53 : ℕ) + q := by
    refine (Int.lt_zpow_iff_log_lt one_lt_two hpos).mp ?_
    rw [Nat.cast_ofNat, hpower]
    exact mul_lt_mul_of_pos_right (by exact_mod_cast hlt) hunit
  unfold gridOf
  rcases hlead with hlead | rfl
  · have hlow : (52 : ℕ) + q ≤ Int.log 2 (m * 2 ^ q : ℚ) := by
      refine (Int.zpow_le_iff_le_log one_lt_two hpos).mp ?_
      rw [Nat.cast_ofNat, hpower]
      exact mul_le_mul_of_nonneg_right (by exact_mod_cast hlead) hunit.le
    omega
  · omega

theorem nearestCode_magnitude {n : ℕ} (h : n < infinityCode) : nearestCode (magnitude n) = n := by
  have hr := toRat_magnitude n
  unfold infinityCode blockSize at h
  by_cases hzero : n = 0
  · subst hzero
    rfl
  by_cases hsub : n < blockSize
  · rw [significand, exponent, if_pos hsub, if_pos hsub] at hr
    unfold blockSize at hsub
    have hgrid := gridOf_eq hzero (by omega) (le_refl _) (.inr rfl)
    rw [← hr] at hgrid
    rw [nearestCode_of_toRat_eq hzero hr hgrid]
    unfold infinityCode blockSize
    omega
  · rw [significand, exponent, if_neg hsub, if_neg hsub] at hr
    unfold blockSize at hsub hr
    have hgrid := @gridOf_eq (0x10000000000000 + n % 0x10000000000000)
      ((n / 0x10000000000000 : ℕ) - 1075) (by omega) (by omega) (by omega) (.inl (by omega))
    rw [← hr] at hgrid
    rw [nearestCode_of_toRat_eq (by omega) hr hgrid]
    unfold infinityCode blockSize
    omega

/-! ## Outside the range -/

theorem nearestCode_of_great {r : Ratio} (h : (2 : ℚ) ^ (1024 : ℤ) ≤ r.toRat) :
    nearestCode r = infinityCode := by
  have hpos : 0 < r.toRat := lt_of_lt_of_le (zpow_pos two_pos _) h
  have hlog : 1024 ≤ Int.log 2 r.toRat :=
    (Int.zpow_le_iff_le_log one_lt_two hpos).mp (by rwa [Nat.cast_ofNat])
  have hnum : r.num ≠ 0 := fun hzero => hpos.ne' (Ratio.toRat_eq_zero_iff.mpr hzero)
  have hgrid : gridOf r.toRat = Int.log 2 r.toRat - 52 := by
    unfold gridOf
    omega
  have hscaled : ((2 ^ 52 : ℕ) : ℚ) ≤ r.toRat * 2 ^ (-gridOf r.toRat) := by
    rw [hgrid, zpow_neg, ← div_eq_mul_inv, le_div_iff₀ (zpow_pos two_pos _), Nat.cast_pow,
      Nat.cast_ofNat, ← zpow_natCast, ← zpow_add₀ two_ne_zero]
    have hself := Int.zpow_log_le_self one_lt_two hpos
    rw [Nat.cast_ofNat] at hself
    convert hself using 2
    omega
  have hround := le_halfEven hscaled
  rw [nearestCode_eq hnum]
  unfold infinityCode blockSize
  omega

theorem nearestCode_of_small {r : Ratio} (h : r.toRat < (2 : ℚ) ^ (-1075 : ℤ)) :
    nearestCode r = 0 := by
  by_cases hzero : r.num = 0
  · exact nearestCode_of_num_eq_zero hzero
  have hpos := Ratio.toRat_pos hzero
  have hlog : Int.log 2 r.toRat < -1075 :=
    (Int.lt_zpow_iff_log_lt one_lt_two hpos).mp (by rwa [Nat.cast_ofNat])
  have hgrid : gridOf r.toRat = -1074 := by
    unfold gridOf
    omega
  have hscaled : r.toRat * 2 ^ (-gridOf r.toRat) < 1 / 2 := by
    rw [hgrid, zpow_neg, ← div_eq_mul_inv, div_lt_iff₀ (zpow_pos two_pos _)]
    refine lt_of_lt_of_eq h ?_
    rw [show (-1075 : ℤ) = -1 + -1074 by norm_num, zpow_add₀ two_ne_zero, zpow_neg_one, one_div]
  rw [nearestCode_eq hzero, halfEven_eq_zero hscaled, hgrid]
  rfl

end Calculator.Binary64
