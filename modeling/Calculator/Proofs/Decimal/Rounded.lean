import Calculator.Proofs.Binary64.Nearest
import Calculator.Proofs.ReadBack

/-!
# Decimals with a given number of places

A magnitude is rounded to a decimal with a given number of places behind the leading digit, and the
decimal is read as a magnitude again. The second rounding goes no farther than the first one, so the
two together stay within a unit in the last place, and from sixteen places on they lead back.

* `roundedTo`: a number rounded to so many places
* `Decimal.value_rounded`: the decimal that is written
* `Decimal.toCode_rounded_eq_infinityCode_iff`: when infinity is read
* `Decimal.abs_magnitude_toCode_rounded_sub_le`, `Decimal.toCode_rounded_of_sixteen_le`: otherwise
-/

namespace Calculator

open Binary64 (magnitude infinityCode overflowBound)

/-! ## Rounding to decimal places -/

/-- A positive number rounded to so many places behind its leading digit, halves to even. -/
def roundedTo (places : ℕ) (y : ℚ) : ℚ :=
  halfEven (y * 10 ^ (places - Int.log 10 y)) * 10 ^ (Int.log 10 y - places)

section RoundedTo

variable {y : ℚ}

theorem abs_halfEven_mul_zpow_sub_le (hy : 0 ≤ y) (k : ℤ) :
    |halfEven (y * 10 ^ (-k)) * 10 ^ k - y| ≤ 1 / 2 * 10 ^ k := by
  have hunit : (0 : ℚ) < 10 ^ k := zpow_pos (by norm_num) k
  have hscaled : 0 ≤ y * 10 ^ (-k) := mul_nonneg hy (zpow_pos (by norm_num) _).le
  have hback : y * 10 ^ (-k) * 10 ^ k = y := by
    rw [mul_assoc, ← zpow_add₀ (by norm_num), neg_add_cancel, zpow_zero, mul_one]
  calc |halfEven (y * 10 ^ (-k)) * 10 ^ k - y|
      = |(halfEven (y * 10 ^ (-k)) : ℚ) - y * 10 ^ (-k)| * 10 ^ k := by
        rw [← abs_of_pos hunit, ← abs_mul, abs_of_pos hunit, sub_mul, hback]
    _ ≤ 1 / 2 * 10 ^ k :=
        mul_le_mul_of_nonneg_right (abs_halfEven_sub_le_half hscaled) hunit.le

theorem abs_roundedTo_sub_le (hy : 0 < y) (places : ℕ) :
    |roundedTo places y - y| ≤ 1 / 2 * 10 ^ (-places : ℤ) * y := by
  have hlead : (10 : ℚ) ^ Int.log 10 y ≤ y := by
    have hlog := Int.zpow_log_le_self (b := 10) (by decide) hy
    rwa [Nat.cast_ofNat] at hlog
  have hunit : (10 : ℚ) ^ (Int.log 10 y - places) = 10 ^ (-places : ℤ) * 10 ^ Int.log 10 y := by
    rw [← zpow_add₀ (by norm_num), neg_add_eq_sub]
  have hround := abs_halfEven_mul_zpow_sub_le hy.le (Int.log 10 y - places)
  rw [neg_sub, hunit] at hround
  rw [roundedTo, hunit]
  refine hround.trans ?_
  rw [mul_assoc]
  exact mul_le_mul_of_nonneg_left
    (mul_le_mul_of_nonneg_left hlead (zpow_pos (by norm_num) _).le) (by norm_num)

theorem halfEven_mul_zpow_of_natCast {k : ℤ} {m : ℕ} (h : y * 10 ^ (-k) = m) :
    halfEven (y * 10 ^ (-k)) * 10 ^ k = y := by
  rw [h, halfEven_natCast, ← h, mul_assoc, ← zpow_add₀ (by norm_num), neg_add_cancel, zpow_zero,
    mul_one]

end RoundedTo

namespace Decimal

variable {n : ℕ}

theorem toRat_magnitude_pos (hn : n ≠ 0) : 0 < (magnitude n).toRat := by
  rw [← Binary64.toRat_magnitude_zero]
  exact Binary64.strictMono_magnitude (Nat.pos_of_ne_zero hn)

/-- A decimal is rounded to its places even where a coarser grid does. -/
theorem value_rounded (hn : n ≠ 0) (places : ℕ) :
    (rounded places n).value = roundedTo places (magnitude n).toRat := by
  have hnum : (magnitude n).num ≠ 0 := fun hzero =>
    (toRat_magnitude_pos hn).ne' (Ratio.toRat_eq_zero_iff.mpr hzero)
  have hround : ∀ k : ℤ, ((magnitude n).scale 10 (-k)).nearest =
      halfEven ((magnitude n).toRat * 10 ^ (-k)) := by
    intro k
    rw [Ratio.nearest_eq, Ratio.toRat_scale, Nat.cast_ofNat]
  have hcarry : ∀ (m : ℕ) (k : ℤ), (if m = Nat.pow 10 (places + 1) then
      Decimal.mk (Nat.pow 10 places) (k + 1) else ⟨m, k⟩).value = m * 10 ^ k := by
    intro m k
    split
    · next hm =>
      rw [hm, value, Nat.pow_eq, Nat.pow_eq, zpow_add_one₀ (by norm_num)]
      push_cast
      ring
    · rfl
  dsimp only [rounded]
  rw [hcarry, hround, Ratio.log10_eq hnum]
  rcases le_total (min (Binary64.exponent n) 0) (Int.log 10 (magnitude n).toRat - places) with
    hcoarse | hfine
  · rw [max_eq_left hcoarse, neg_sub, roundedTo]
  · obtain ⟨m, hm⟩ := exists_units n hfine
    obtain ⟨m', hm'⟩ := exists_units n (le_refl _)
    rw [max_eq_right hfine, halfEven_mul_zpow_of_natCast hm', roundedTo, ← neg_sub,
      halfEven_mul_zpow_of_natCast hm]

/-! ## Reading the decimal -/

theorem toCode_rounded_le (places n : ℕ) : (rounded places n).toCode ≤ infinityCode := by
  rw [toCode_eq]
  exact Binary64.nearestCode_le _

theorem toCode_rounded_eq_infinityCode_iff (hn : n ≠ 0) (places : ℕ) :
    (rounded places n).toCode = infinityCode ↔
      overflowBound ≤ roundedTo places (magnitude n).toRat := by
  rw [toCode_eq, Binary64.nearestCode_eq_infinityCode_iff, toRat_toRatio, value_rounded hn]

/-- What is read is no farther from the decimal than the magnitude that was written. -/
theorem abs_magnitude_toCode_rounded_sub_le (hn : n ≠ 0) {places : ℕ}
    (hfinite : (rounded places n).toCode < infinityCode) :
    |(magnitude (rounded places n).toCode).toRat - (magnitude n).toRat| ≤
      10 ^ (-places : ℤ) * (magnitude n).toRat := by
  rw [toCode_eq] at hfinite ⊢
  have hread := Binary64.abs_magnitude_nearestCode_sub_le hfinite n
  have hwritten := abs_roundedTo_sub_le (toRat_magnitude_pos hn) places
  rw [toRat_toRatio, value_rounded hn] at hread
  rw [abs_sub_comm (magnitude n).toRat] at hread
  have htriangle := abs_sub_le
    (magnitude (Binary64.nearestCode (rounded places n).toRatio)).toRat
    (roundedTo places (magnitude n).toRat) (magnitude n).toRat
  linarith

/-! ## Sixteen places -/

theorem roundedTo_lt_overflowBound {places : ℕ} (hplaces : 16 ≤ places) (hn : n ≠ 0)
    (hfinite : n < infinityCode) : roundedTo places (magnitude n).toRat < overflowBound := by
  have hpos := toRat_magnitude_pos hn
  have hunit : (10 : ℚ) ^ (-places : ℤ) ≤ 10 ^ (-16 : ℤ) :=
    zpow_le_zpow_right₀ (by norm_num) (by omega)
  have hround := (abs_le.mp (abs_roundedTo_sub_le hpos places)).2
  calc roundedTo places (magnitude n).toRat
      ≤ (1 / 2 * 10 ^ (-places : ℤ) + 1) * (magnitude n).toRat := by linarith
    _ ≤ (1 / 2 * 10 ^ (-16 : ℤ) + 1) * (magnitude n).toRat := by gcongr
    _ ≤ (1 / 2 * 10 ^ (-16 : ℤ) + 1) * ((2 ^ 54 - 2) * 2 ^ (970 : ℤ)) :=
        mul_le_mul_of_nonneg_left (Binary64.toRat_magnitude_le hfinite) (by norm_num)
    _ < (2 ^ 54 - 1) * 2 ^ (970 : ℤ) := by
        rw [← mul_assoc]
        exact mul_lt_mul_of_pos_right (by norm_num) (zpow_pos two_pos _)

/-- With sixteen places or more, the magnitude that was written is read. -/
theorem toCode_rounded_of_sixteen_le {places : ℕ} (hplaces : 16 ≤ places) (hn : n ≠ 0)
    (hfinite : n < infinityCode) : (rounded places n).toCode = n := by
  have hpos := toRat_magnitude_pos hn
  have hread : (rounded places n).toCode < infinityCode :=
    lt_of_le_of_ne (toCode_rounded_le places n) fun heq =>
      absurd ((toCode_rounded_eq_infinityCode_iff hn places).mp heq)
        (not_le.mpr (roundedTo_lt_overflowBound hplaces hn hfinite))
  by_contra hne
  have hapart := Binary64.toRat_magnitude_le_mul_abs_sub hne
  have hnear := abs_magnitude_toCode_rounded_sub_le hn hread
  have hunit : (10 : ℚ) ^ (-places : ℤ) ≤ 10 ^ (-16 : ℤ) :=
    zpow_le_zpow_right₀ (by norm_num) (by omega)
  have hnear' := hnear.trans (mul_le_mul_of_nonneg_right hunit hpos.le)
  norm_num at hnear'
  linarith

end Decimal

end Calculator
