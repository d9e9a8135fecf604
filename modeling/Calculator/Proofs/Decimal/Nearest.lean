import Calculator.Proofs.Scientific

/-!
# The nearest double to a decimal

A decimal, and with it a numeral of any length, is read as the double nearest to the number that it
stands for.

* `Binary64.IsNearest`: the double to which a number is rounded
* `Numeral.value`: the number that a numeral stands for
* `Decimal.isNearest_toFloat`, `Numeral.isNearest_toFloat`: decimals and numerals are read so
-/

namespace Calculator

namespace Binary64

/-- The double `x` is the one to which a number `r` that is not negative is rounded. It is infinite
exactly if `r` lies half a step above the greatest finite double or beyond. Otherwise no finite
double is nearer to `r`, and the significand is even if another one is equally near. -/
structure IsNearest (r : ℚ) (x : Float) : Prop where
  nonnegative : isNegative x = false
  number : isNaN x = false
  infinite : isFinite x = false ↔ overflowBound ≤ r
  nearest : isFinite x = true → ∀ y, isFinite y = true → |toRat x - r| ≤ |toRat y - r|
  even : isFinite x = true → ∀ y, isFinite y = true → toRat y ≠ toRat x →
    |toRat y - r| = |toRat x - r| → significand (code x) % 2 = 0

theorem significand_mod_two (n : ℕ) : significand n % 2 = n % 2 := by
  unfold significand blockSize
  split <;> omega

theorem toRat_of_nonnegative {x : Float} (h : isNegative x = false) :
    toRat x = (magnitude (code x)).toRat := by
  rw [toRat, h]
  rfl

/-- A sign does not bring a double nearer. -/
theorem abs_magnitude_sub_le {r : ℚ} (hr : 0 ≤ r) (y : Float) :
    |(magnitude (code y)).toRat - r| ≤ |toRat y - r| := by
  have h := abs_abs_sub_abs_le (toRat y) r
  rwa [abs_toRat, abs_of_nonneg hr] at h

end Binary64

open Binary64 (IsNearest isFinite isNaN code ofCode toRat magnitude infinityCode nearestCode)

namespace Decimal

theorem value_nonneg (d : Decimal) : 0 ≤ d.value :=
  mul_nonneg (Nat.cast_nonneg _) (zpow_pos (by norm_num) _).le

/-- A decimal is read as the nearest double, whatever its exponent is and however many digits it
has. -/
theorem isNearest_toFloat (d : Decimal) : IsNearest d.value d.toFloat := by
  have hcode : d.toCode = nearestCode d.toRatio := d.toCode_eq
  have hle : nearestCode d.toRatio ≤ infinityCode := Binary64.nearestCode_le _
  have hinfinity := @Binary64.nearestCode_eq_infinityCode_iff d.toRatio
  have hnearest := @Binary64.abs_magnitude_nearestCode_sub_le d.toRatio
  have heven := @Binary64.nearestCode_even_of_tie d.toRatio
  rw [toRat_toRatio] at hinfinity hnearest heven
  rw [toFloat, hcode]
  generalize nearestCode d.toRatio = c at *
  have hc := Binary64.code_ofCode hle
  have hsign := Binary64.isNegative_ofCode hle
  have hvalue : toRat (ofCode c) = (magnitude c).toRat := by
    rw [Binary64.toRat_of_nonnegative hsign, hc]
  have hfinite : isFinite (ofCode c) = true ↔ c < infinityCode := by
    rw [isFinite, hc, decide_eq_true_iff]
  refine ⟨hsign, ?_, ?_, ?_, ?_⟩
  · rw [isNaN, hc]
    exact decide_eq_false hle.not_gt
  · rw [← Bool.not_eq_true, hfinite, ← hinfinity]
    omega
  · intro h y _
    rw [hvalue]
    exact (hnearest (hfinite.mp h) _).trans (Binary64.abs_magnitude_sub_le d.value_nonneg y)
  · intro h y _ hne htie
    rw [hvalue] at hne htie
    have hclosest := hnearest (hfinite.mp h)
    have hmagnitude := Binary64.abs_magnitude_sub_le d.value_nonneg y
    rw [hc, Binary64.significand_mod_two]
    refine heven (hfinite.mp h) ?_ ((hmagnitude.trans_eq htie).antisymm (hclosest (code y)))
    -- The same magnitude with a minus sign is farther off, unless it is zero.
    rintro rfl
    refine hne ?_
    have hnonneg := Binary64.magnitude_nonneg (code y)
    have hzero := hclosest 0
    rw [Binary64.toRat_magnitude_zero, zero_sub, abs_neg, abs_of_nonneg d.value_nonneg] at hzero
    rw [toRat] at htie ⊢
    split
    · next hnegative =>
      rw [if_pos hnegative, ← neg_add', abs_neg,
        abs_of_nonneg (add_nonneg hnonneg d.value_nonneg)] at htie
      linarith
    · rfl

end Decimal

/-- The number that a numeral stands for. -/
def Numeral.value (n : Numeral) : ℚ :=
  (Nat.ofDigitChars 10 n.whole 0 +
      Nat.ofDigitChars 10 (n.fraction.getD []) 0 / 10 ^ (n.fraction.getD []).length) *
    10 ^ (n.exponent.map Exponent.value).getD 0

theorem Numeral.value_toDecimal (n : Numeral) : n.toDecimal.value = n.value := by
  rw [Decimal.value, value, toDecimal, digits, Nat.ofDigitChars_append,
    Nat.ofDigitChars_eq_ofDigitChars_zero, zpow_sub₀ (by norm_num), zpow_natCast]
  push_cast
  field_simp

theorem Numeral.isNearest_toFloat (n : Numeral) : IsNearest n.value n.toFloat := by
  rw [← value_toDecimal]
  exact n.toDecimal.isNearest_toFloat

end Calculator
