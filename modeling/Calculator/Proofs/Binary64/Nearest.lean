import Calculator.Proofs.Binary64.Rounding

/-!
# The nearest double

Magnitudes grow with their codes, and rounding finds the code whose magnitude is nearest. From half
a step above the greatest finite magnitude on it finds the code of infinity.

* `toRat_magnitude_succ`, `strictMono_magnitude`: the steps from one magnitude to the next
* `toRat_magnitude_le_mul_abs_sub`: how near two magnitudes can be
* `abs_magnitude_nearestCode_sub_le`, `nearestCode_even_of_tie`: no magnitude is nearer, and if
  another one is as near, the code is even
* `nearestCode_eq_infinityCode_iff`: where infinity begins
-/

namespace Calculator.Binary64

/-! ## Magnitudes and their codes -/

theorem significand_lt (n : ℕ) : significand n < 2 ^ 53 := by
  unfold significand blockSize
  split <;> omega

theorem le_exponent (n : ℕ) : -1074 ≤ exponent n := by
  unfold exponent blockSize
  split <;> omega

/-- The leading bit is set unless the exponent is the least. -/
theorem exponent_eq_or_le_significand (n : ℕ) : exponent n = -1074 ∨ 2 ^ 52 ≤ significand n := by
  unfold exponent significand blockSize
  split <;> omega

theorem significand_add (n : ℕ) :
    significand n + blockSize * (exponent n + 1074).toNat = n := by
  unfold exponent significand blockSize
  split <;> omega

/-- The magnitude of a code that is put together from a place on a grid. A carry out of the place
runs into the exponent. -/
theorem toRat_magnitude_of_grid {m : ℕ} {q : ℤ} (hm : m ≤ 2 ^ 53) (hq : -1074 ≤ q)
    (hlead : q = -1074 ∨ 2 ^ 52 ≤ m) :
    (magnitude (m + blockSize * (q + 1074).toNat)).toRat = m * 2 ^ q := by
  obtain ⟨j, rfl⟩ : ∃ j : ℕ, q = j - 1074 := ⟨(q + 1074).toNat, by omega⟩
  have hj : ((j : ℤ) - 1074 + 1074).toNat = j := by omega
  rw [toRat_magnitude, hj]
  unfold significand exponent blockSize
  rcases lt_trichotomy m (2 ^ 53) with hlt | rfl | hgt
  · by_cases hsub : m + 0x10000000000000 * j < 0x10000000000000
    · obtain rfl : j = 0 := by omega
      rw [if_pos hsub, if_pos hsub]
      rfl
    · have hm' : 2 ^ 52 ≤ m := by omega
      have hdiv : (m + 0x10000000000000 * j) / 0x10000000000000 = j + 1 := by omega
      have hmod : 0x10000000000000 + (m + 0x10000000000000 * j) % 0x10000000000000 = m := by omega
      rw [if_neg hsub, if_neg hsub, hdiv, hmod]
      congr 2
      omega
  · have hdiv : (2 ^ 53 + 0x10000000000000 * j) / 0x10000000000000 = j + 2 := by omega
    have hmod : (2 ^ 53 + 0x10000000000000 * j) % 0x10000000000000 = 0 := by omega
    have hexponent : ((j + 2 : ℕ) : ℤ) - 1075 = j - 1074 + 1 := by omega
    rw [if_neg (by omega), if_neg (by omega), hdiv, hmod, hexponent, zpow_add_one₀ two_ne_zero]
    push_cast
    ring
  · omega

theorem toRat_magnitude_succ (n : ℕ) :
    (magnitude (n + 1)).toRat = (magnitude n).toRat + 2 ^ exponent n := by
  have hlead : exponent n = -1074 ∨ 2 ^ 52 ≤ significand n + 1 :=
    (exponent_eq_or_le_significand n).imp_right Nat.le_succ_of_le
  have hcode : significand n + 1 + blockSize * (exponent n + 1074).toNat = n + 1 := by
    rw [Nat.add_right_comm, significand_add]
  rw [← hcode, toRat_magnitude_of_grid (significand_lt n) (le_exponent n) hlead, toRat_magnitude]
  push_cast
  ring

theorem strictMono_magnitude : StrictMono fun n => (magnitude n).toRat := by
  refine strictMono_nat_of_lt_succ fun n => ?_
  rw [toRat_magnitude_succ]
  exact lt_add_of_pos_right _ (zpow_pos two_pos _)

theorem toRat_magnitude_zero : (magnitude 0).toRat = 0 :=
  Ratio.toRat_eq_zero_iff.mpr (Nat.zero_mul _)

theorem toRat_magnitude_infinityCode : (magnitude infinityCode).toRat = 2 ^ (1024 : ℤ) := by
  have hpower : (1024 : ℤ) = 52 + 972 := by norm_num
  rw [toRat_magnitude, hpower, zpow_add₀ two_ne_zero]
  rfl

/-- Magnitudes with different codes differ by at least one unit in their last place. -/
theorem toRat_magnitude_le_mul_abs_sub {c n : ℕ} (h : c ≠ n) :
    (magnitude n).toRat ≤ 2 ^ 53 * |(magnitude c).toRat - (magnitude n).toRat| := by
  have hstep : ∀ k, (magnitude k).toRat + 2 ^ exponent k ≤ 2 ^ 53 * 2 ^ exponent k := by
    intro k
    have hlt : (significand k : ℚ) + 1 ≤ 2 ^ 53 := by exact_mod_cast significand_lt k
    rw [toRat_magnitude, ← add_one_mul]
    exact mul_le_mul_of_nonneg_right hlt (zpow_pos two_pos _).le
  rcases lt_or_gt_of_ne h with hlt | hgt
  · obtain ⟨k, rfl⟩ : ∃ k, n = k + 1 := ⟨n - 1, by omega⟩
    have hmono := strictMono_magnitude.monotone (Nat.le_of_lt_succ hlt)
    have hsucc := toRat_magnitude_succ k
    have habs := neg_le_abs ((magnitude c).toRat - (magnitude (k + 1)).toRat)
    linarith [hstep k]
  · have hmono := strictMono_magnitude.monotone (Nat.succ_le_of_lt hgt)
    have hsucc := toRat_magnitude_succ n
    have habs := le_abs_self ((magnitude c).toRat - (magnitude n).toRat)
    have hpos : (0 : ℚ) < 2 ^ exponent n := zpow_pos two_pos _
    linarith [hstep n]

/-! ## Nearest -/

/-- A positive number fits its place on its grid, and it has the leading bit there unless the grid
is the finest. -/
theorem gridOf_spec {y : ℚ} (hy : 0 < y) : -1074 ≤ gridOf y ∧ y < 2 ^ (53 + gridOf y) ∧
    (gridOf y = -1074 ∨ (2 : ℚ) ^ (52 + gridOf y) ≤ y) := by
  have hlow := Int.zpow_log_le_self one_lt_two hy
  have hhigh := Int.lt_zpow_succ_log_self one_lt_two y
  rw [Nat.cast_ofNat] at hlow hhigh
  refine ⟨le_max_right _ _, hhigh.trans_le ?_, ?_⟩
  · refine zpow_le_zpow_right₀ one_le_two ?_
    unfold gridOf
    omega
  · rcases le_total (Int.log 2 y - 52) (-1074) with hsub | hnormal
    · exact .inl (max_eq_right hsub)
    · refine .inr ((zpow_le_zpow_right₀ one_le_two ?_).trans hlow)
      rw [gridOf, max_eq_left hnormal]
      omega

/-- A number rounded to the grid that it has as a double. -/
def onGrid (y : ℚ) : ℕ := halfEven (y * 2 ^ (-gridOf y))

section OnGrid

variable {y : ℚ}

theorem mul_zpow_gridOf (y : ℚ) : y * 2 ^ (-gridOf y) * 2 ^ gridOf y = y := by
  rw [mul_assoc, ← zpow_add₀ two_ne_zero, neg_add_cancel, zpow_zero, mul_one]

theorem abs_mul_zpow_gridOf_sub (m : ℕ) : |m * 2 ^ gridOf y - y| =
    |(m : ℚ) - y * 2 ^ (-gridOf y)| * 2 ^ gridOf y := by
  have hunit : (0 : ℚ) < 2 ^ gridOf y := zpow_pos two_pos _
  rw [← abs_of_pos hunit, ← abs_mul, abs_of_pos hunit, sub_mul, mul_zpow_gridOf]

theorem abs_onGrid_sub_le (hy : 0 < y) (m : ℕ) :
    |onGrid y * 2 ^ gridOf y - y| ≤ |m * 2 ^ gridOf y - y| := by
  have hscaled : 0 ≤ y * 2 ^ (-gridOf y) := (mul_pos hy (zpow_pos two_pos _)).le
  rw [abs_mul_zpow_gridOf_sub, abs_mul_zpow_gridOf_sub]
  exact mul_le_mul_of_nonneg_right (abs_halfEven_sub_le hscaled m) (zpow_pos two_pos _).le

theorem onGrid_le (hy : 0 < y) : onGrid y ≤ 2 ^ 53 := by
  refine halfEven_le (mul_pos hy (zpow_pos two_pos _)).le ?_
  obtain ⟨-, hlt, -⟩ := gridOf_spec hy
  rw [zpow_neg, ← div_eq_mul_inv, div_le_iff₀ (zpow_pos two_pos _)]
  rw [zpow_add₀ two_ne_zero] at hlt
  exact_mod_cast hlt.le

theorem le_onGrid (hy : 0 < y) : gridOf y = -1074 ∨ 2 ^ 52 ≤ onGrid y := by
  obtain ⟨-, -, hlead⟩ := gridOf_spec hy
  refine hlead.imp_right fun hle => le_halfEven ?_
  rw [zpow_neg, ← div_eq_mul_inv, le_div_iff₀ (zpow_pos two_pos _)]
  rw [zpow_add₀ two_ne_zero] at hle
  exact_mod_cast hle

end OnGrid

/-- Rounding finds a place on the grid, or infinity. -/
theorem nearestCode_spec {r : Ratio} (h : r.num ≠ 0) :
    ∃ c, nearestCode r = min infinityCode c ∧
      (magnitude c).toRat = onGrid r.toRat * 2 ^ gridOf r.toRat := by
  have hpos := Ratio.toRat_pos h
  exact ⟨_, nearestCode_eq h, toRat_magnitude_of_grid (onGrid_le hpos) (gridOf_spec hpos).1
    (le_onGrid hpos)⟩

theorem nearestCode_le (r : Ratio) : nearestCode r ≤ infinityCode := by
  by_cases h : r.num = 0
  · rw [nearestCode_of_num_eq_zero h]
    exact Nat.zero_le _
  · obtain ⟨c, hc, -⟩ := nearestCode_spec h
    rw [hc]
    exact min_le_left _ _

/-- A magnitude on a grid that is not finer is a place on this grid as well. -/
theorem exists_place {n : ℕ} {q : ℤ} (h : q ≤ exponent n) :
    ∃ m : ℕ, (magnitude n).toRat = m * 2 ^ q := by
  obtain ⟨i, hi⟩ : ∃ i : ℕ, exponent n = i + q := ⟨(exponent n - q).toNat, by omega⟩
  refine ⟨significand n * 2 ^ i, ?_⟩
  rw [toRat_magnitude, hi, zpow_add₀ two_ne_zero, zpow_natCast]
  push_cast
  ring

/-- A magnitude on a finer grid lies below the numbers with a leading bit on this one. -/
theorem abs_onGrid_sub_lt {y : ℚ} (hy : 0 < y) {n : ℕ} (hfine : exponent n < gridOf y) :
    |onGrid y * 2 ^ gridOf y - y| < |(magnitude n).toRat - y| := by
  obtain ⟨-, -, hlead⟩ := gridOf_spec hy
  have hle : (2 : ℚ) ^ (52 + gridOf y) ≤ y := hlead.resolve_left fun heq => by
    have hleast := le_exponent n
    omega
  have hbelow : (magnitude n).toRat < 2 ^ (52 + gridOf y) := by
    have hlt : (significand n : ℚ) < 2 ^ (53 : ℤ) := by exact_mod_cast significand_lt n
    calc (magnitude n).toRat = significand n * 2 ^ exponent n := toRat_magnitude n
      _ < 2 ^ (53 : ℤ) * 2 ^ exponent n := mul_lt_mul_of_pos_right hlt (zpow_pos two_pos _)
      _ = 2 ^ (53 + exponent n) := (zpow_add₀ two_ne_zero _ _).symm
      _ ≤ 2 ^ (52 + gridOf y) := zpow_le_zpow_right₀ one_le_two (by omega)
  have hnear := abs_onGrid_sub_le hy (2 ^ 52)
  have hpower : ((2 ^ 52 : ℕ) : ℚ) * 2 ^ gridOf y = 2 ^ (52 + gridOf y) := by
    rw [zpow_add₀ two_ne_zero]
    norm_cast
  rw [hpower, abs_sub_comm _ y, abs_sub_comm _ y, abs_of_nonneg (sub_nonneg.mpr hle)] at hnear
  rw [abs_sub_comm _ y, abs_sub_comm _ y]
  linarith [le_abs_self (y - (magnitude n).toRat)]

/-- Unless a quotient is rounded to infinity, no magnitude is nearer to it than the one it is
rounded to. -/
theorem abs_magnitude_nearestCode_sub_le {r : Ratio} (hfinite : nearestCode r < infinityCode)
    (n : ℕ) : |(magnitude (nearestCode r)).toRat - r.toRat| ≤ |(magnitude n).toRat - r.toRat| := by
  by_cases hzero : r.num = 0
  · rw [nearestCode_of_num_eq_zero hzero, toRat_magnitude_zero, Ratio.toRat_eq_zero_iff.mpr hzero,
      sub_self, abs_zero]
    exact abs_nonneg _
  have hpos := Ratio.toRat_pos hzero
  obtain ⟨c, hc, hmagnitude⟩ := nearestCode_spec hzero
  obtain rfl : nearestCode r = c := by omega
  rw [hmagnitude]
  rcases le_or_gt (gridOf r.toRat) (exponent n) with hcoarse | hfine
  · obtain ⟨m, hplace⟩ := exists_place hcoarse
    rw [hplace]
    exact abs_onGrid_sub_le hpos m
  · exact (abs_onGrid_sub_lt hpos hfine).le

/-- Of two magnitudes that are equally near the one with the even code is found. -/
theorem nearestCode_even_of_tie {r : Ratio} (hfinite : nearestCode r < infinityCode) {n : ℕ}
    (hne : n ≠ nearestCode r)
    (htie : |(magnitude n).toRat - r.toRat| = |(magnitude (nearestCode r)).toRat - r.toRat|) :
    nearestCode r % 2 = 0 := by
  by_cases hzero : r.num = 0
  · rw [nearestCode_of_num_eq_zero hzero]
  have hpos := Ratio.toRat_pos hzero
  have hcode := nearestCode_eq hzero
  obtain ⟨c, hc, hmagnitude⟩ := nearestCode_spec hzero
  obtain rfl : nearestCode r = c := by omega
  have hparity : nearestCode r % 2 = onGrid r.toRat % 2 := by
    have hblock : nearestCode r =
        onGrid r.toRat + blockSize * (gridOf r.toRat + 1074).toNat := by
      rw [onGrid]
      omega
    rw [hblock, blockSize]
    omega
  rw [hmagnitude] at htie
  rcases le_or_gt (gridOf r.toRat) (exponent n) with hcoarse | hfine
  · obtain ⟨m, hplace⟩ := exists_place hcoarse
    have hunit : (0 : ℚ) < 2 ^ gridOf r.toRat := zpow_pos two_pos _
    rw [hplace, abs_mul_zpow_gridOf_sub, abs_mul_zpow_gridOf_sub] at htie
    rw [hparity]
    refine halfEven_even_of_tie (mul_pos hpos (zpow_pos two_pos _)).le ?_
      (mul_right_cancel₀ hunit.ne' htie)
    rintro rfl
    rw [← onGrid, ← hmagnitude] at hplace
    exact hne (strictMono_magnitude.injective hplace)
  · exact absurd htie (abs_onGrid_sub_lt hpos hfine).ne'

/-! ## Infinity -/

/-- Half a step above the greatest finite magnitude, which is `(2 ^ 53 - 1) * 2 ^ 971`. -/
def overflowBound : ℚ := (2 ^ 54 - 1) * 2 ^ (970 : ℤ)

theorem overflowBound_pos : 0 < overflowBound :=
  mul_pos (by norm_num) (zpow_pos two_pos _)

theorem toRat_magnitude_le {n : ℕ} (h : n < infinityCode) :
    (magnitude n).toRat ≤ (2 ^ 54 - 2) * 2 ^ (970 : ℤ) := by
  have hmono := strictMono_magnitude.monotone (Nat.le_sub_one_of_lt h)
  have hsignificand : ((significand (infinityCode - 1) : ℕ) : ℚ) * 2 = 2 ^ 54 - 2 := by
    norm_num [significand, infinityCode, blockSize]
  have hexponent : exponent (infinityCode - 1) = 1 + 970 := rfl
  refine hmono.trans_eq ?_
  rw [toRat_magnitude, hexponent, zpow_one_add₀ two_ne_zero, ← mul_assoc, hsignificand]

theorem two_zpow_add_970 (k : ℕ) : (2 : ℚ) ^ (k + 970 : ℤ) = 2 ^ k * 2 ^ (970 : ℤ) := by
  rw [zpow_add₀ two_ne_zero, zpow_natCast]

/-- Places on the grid reach the end of the finite magnitudes exactly if the number itself is not
nearer to the greatest of these. -/
theorem le_onGrid_iff {y : ℚ} (hy : 0 < y) :
    (2 : ℚ) ^ (1024 : ℤ) ≤ onGrid y * 2 ^ gridOf y ↔ overflowBound ≤ y := by
  have hend : (2 : ℚ) ^ (1024 : ℤ) = 2 ^ 54 * 2 ^ (970 : ℤ) := two_zpow_add_970 54
  have hunit : (0 : ℚ) < 2 ^ (970 : ℤ) := zpow_pos two_pos _
  have hplace : (onGrid y : ℚ) ≤ 2 ^ 53 := by exact_mod_cast onGrid_le hy
  obtain ⟨-, hlt, hlead⟩ := gridOf_spec hy
  rw [overflowBound]
  -- The grid of the greatest finite magnitudes is that of `2 ^ 971`.
  rcases lt_trichotomy (gridOf y) 971 with hfine | hlast | hcoarse
  · have hgrid : (2 : ℚ) ^ gridOf y ≤ 2 ^ (970 : ℤ) := zpow_le_zpow_right₀ one_le_two (by omega)
    have hround := mul_le_mul hplace hgrid (zpow_pos two_pos _).le (by positivity)
    have hy' : y < 2 ^ 53 * 2 ^ (970 : ℤ) :=
      (hlt.trans_le (zpow_le_zpow_right₀ one_le_two (by omega))).trans_eq (two_zpow_add_970 53)
    rw [hend]
    exact iff_of_false
      (not_le.mpr (hround.trans_lt (mul_lt_mul_of_pos_right (by norm_num) hunit)))
      (not_le.mpr (hy'.trans (mul_lt_mul_of_pos_right (by norm_num) hunit)))
  · have hgrid : (2 : ℚ) ^ gridOf y = 2 * 2 ^ (970 : ℤ) := by
      rw [hlast, ← zpow_one_add₀ two_ne_zero]
      rfl
    have hscaled : 0 ≤ y * 2 ^ (-gridOf y) := (mul_pos hy (zpow_pos two_pos _)).le
    have hround := le_halfEven_iff (n := 2 ^ 53) (by decide) hscaled
    rw [zpow_neg, ← div_eq_mul_inv, le_div_iff₀ (zpow_pos two_pos _)] at hround
    have hreach : 2 ^ 54 * 2 ^ (970 : ℤ) ≤ onGrid y * (2 : ℚ) ^ gridOf y ↔ 2 ^ 53 ≤ onGrid y := by
      have hhalf : (2 : ℚ) ^ 54 * 2 ^ (970 : ℤ) = (2 ^ 53 : ℕ) * 2 ^ gridOf y := by
        rw [hgrid, ← mul_assoc, show ((2 ^ 53 : ℕ) : ℚ) * 2 = 2 ^ 54 by norm_num]
      rw [hhalf, mul_le_mul_iff_of_pos_right (zpow_pos two_pos _), Nat.cast_le]
    have hbound : ((2 ^ 53 : ℕ) - 1 / 2 : ℚ) * 2 ^ gridOf y = (2 ^ 54 - 1) * 2 ^ (970 : ℤ) := by
      rw [hgrid, ← mul_assoc, show ((2 ^ 53 : ℕ) - 1 / 2 : ℚ) * 2 = 2 ^ 54 - 1 by norm_num]
    rw [hend, hreach, onGrid, zpow_neg, ← div_eq_mul_inv, hround, hbound]
  · have hy' : 2 ^ (1024 : ℤ) ≤ y :=
      (zpow_le_zpow_right₀ one_le_two (by omega)).trans (hlead.resolve_left (by omega))
    have hplace' : (2 : ℚ) ^ (52 : ℤ) ≤ onGrid y := by
      exact_mod_cast (le_onGrid hy).resolve_left (by omega)
    have hround : (2 : ℚ) ^ (1024 : ℤ) ≤ onGrid y * 2 ^ gridOf y :=
      calc (2 : ℚ) ^ (1024 : ℤ) = 2 ^ (52 : ℤ) * 2 ^ (972 : ℤ) :=
            zpow_add₀ two_ne_zero 52 972
        _ ≤ onGrid y * 2 ^ gridOf y :=
          mul_le_mul hplace' (zpow_le_zpow_right₀ one_le_two (by omega)) (zpow_pos two_pos _).le
            (Nat.cast_nonneg _)
    rw [hend] at hy'
    exact iff_of_true hround ((mul_le_mul_of_nonneg_right (by norm_num) hunit.le).trans hy')

theorem nearestCode_eq_infinityCode_iff {r : Ratio} :
    nearestCode r = infinityCode ↔ overflowBound ≤ r.toRat := by
  by_cases hzero : r.num = 0
  · rw [nearestCode_of_num_eq_zero hzero, Ratio.toRat_eq_zero_iff.mpr hzero]
    exact iff_of_false (by decide) (not_le.mpr overflowBound_pos)
  have hpos := Ratio.toRat_pos hzero
  obtain ⟨c, hc, hmagnitude⟩ := nearestCode_spec hzero
  rw [← le_onGrid_iff hpos, ← hmagnitude, ← toRat_magnitude_infinityCode,
    strictMono_magnitude.le_iff_le]
  omega

end Calculator.Binary64
