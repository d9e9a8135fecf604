import Calculator.Decimal
import Calculator.Proofs.Binary64.Rounding

/-!
# Decimals that read back

Reading a decimal depends on its value alone, and the decimals by which doubles are written read
back to them.

* `Decimal.toCode_eq`: bringing a huge exponent near zero changes nothing
* `Decimal.toCode_congr`: decimals of one value are read alike
* `Decimal.toCode_shortest`: the fewest digits read back
-/

namespace Calculator

namespace Decimal

open Binary64 (magnitude infinityCode nearestCode)

/-- The value of a decimal. -/
def value (d : Decimal) : ℚ := d.digits * 10 ^ d.exponent

theorem toRat_toRatio (d : Decimal) : d.toRatio.toRat = d.value := by
  rw [toRatio, Ratio.toRat_scale, Ratio.toRat_ofNat, value, Nat.cast_ofNat]

/-! ## Huge exponents -/

theorem two_zpow_le_ten_zpow (m : ℕ) : (2 : ℚ) ^ (3 * m : ℤ) ≤ 10 ^ (m : ℤ) := by
  rw [zpow_mul]
  exact zpow_le_zpow_left₀ (by omega) (by positivity) (by norm_num)

theorem nearestCode_of_exponent_ge {d : Decimal} (hd : d.digits ≠ 0) (h : 400 ≤ d.exponent) :
    nearestCode d.toRatio = infinityCode := by
  apply Binary64.nearestCode_of_great
  have hdigits : (1 : ℚ) ≤ d.digits := by exact_mod_cast Nat.pos_of_ne_zero hd
  rw [toRat_toRatio, value]
  calc (2 : ℚ) ^ (1024 : ℤ) ≤ 2 ^ (3 * (400 : ℕ) : ℤ) :=
        zpow_le_zpow_right₀ one_le_two (by norm_num)
    _ ≤ 10 ^ ((400 : ℕ) : ℤ) := two_zpow_le_ten_zpow 400
    _ ≤ 10 ^ d.exponent := zpow_le_zpow_right₀ (by norm_num) h
    _ ≤ d.digits * 10 ^ d.exponent := le_mul_of_one_le_left (zpow_pos (by norm_num) _).le hdigits

theorem nearestCode_of_exponent_le {d : Decimal} (h : d.exponent ≤ -(400 + d.digits.log2 : ℕ)) :
    nearestCode d.toRatio = 0 := by
  apply Binary64.nearestCode_of_small
  obtain ⟨m, hm⟩ : ∃ m : ℕ, d.exponent = -m := ⟨(-d.exponent).toNat, by omega⟩
  have hdigits : (d.digits : ℚ) < 2 ^ (d.digits.log2 + 1 : ℤ) := by
    have hlog : d.digits < 2 ^ (d.digits.log2 + 1) := Nat.lt_log2_self
    exact_mod_cast hlog
  have hpower : (10 : ℚ) ^ d.exponent ≤ 2 ^ (-(3 * m : ℤ)) := by
    rw [hm, zpow_neg, zpow_neg]
    exact inv_anti₀ (zpow_pos two_pos _) (two_zpow_le_ten_zpow m)
  rw [toRat_toRatio, value]
  calc (d.digits : ℚ) * 10 ^ d.exponent
      < 2 ^ (d.digits.log2 + 1 : ℤ) * 10 ^ d.exponent :=
        mul_lt_mul_of_pos_right hdigits (zpow_pos (by norm_num) _)
    _ ≤ 2 ^ (d.digits.log2 + 1 : ℤ) * 2 ^ (-(3 * m : ℤ)) :=
        mul_le_mul_of_nonneg_left hpower (zpow_pos two_pos _).le
    _ = 2 ^ (d.digits.log2 + 1 - 3 * m : ℤ) := by rw [← zpow_add₀ two_ne_zero]; rfl
    _ ≤ 2 ^ (-1075 : ℤ) := zpow_le_zpow_right₀ one_le_two (by omega)

/-- Tempering a decimal does not change what it is read as. -/
theorem toCode_eq (d : Decimal) : d.toCode = nearestCode d.toRatio := by
  rw [toCode]
  by_cases hd : d.digits = 0
  · have hnum : ∀ e : ℤ, nearestCode (toRatio ⟨d.digits, e⟩) = 0 := by
      intro e
      apply Binary64.nearestCode_of_num_eq_zero
      rw [hd]
      exact Nat.zero_mul _
    exact (hnum _).trans (hnum d.exponent).symm
  rcases lt_or_ge 400 d.exponent with hgreat | hle
  · rw [nearestCode_of_exponent_ge hd hgreat.le]
    refine nearestCode_of_exponent_ge hd ?_
    show 400 ≤ max _ (min 400 d.exponent)
    omega
  rcases lt_or_ge d.exponent (-(400 + d.digits.log2 : ℕ)) with hsmall | hge
  · rw [nearestCode_of_exponent_le hsmall.le]
    refine nearestCode_of_exponent_le ?_
    show max _ (min 400 d.exponent) ≤ -(400 + d.digits.log2 : ℕ)
    omega
  · have htempered : d.tempered = d := by
      have hexponent :
          max (-((400 + d.digits.log2 : ℕ) : ℤ)) (min 400 d.exponent) = d.exponent := by
        omega
      rw [tempered, hexponent]
    rw [htempered]

theorem toCode_congr {d d' : Decimal} (h : d.value = d'.value) : d.toCode = d'.toCode := by
  rw [toCode_eq, toCode_eq]
  exact Binary64.nearestCode_congr (by rw [toRat_toRatio, toRat_toRatio, h])

theorem toCode_of_value_eq {d : Decimal} {n : ℕ} (hn : n < infinityCode)
    (h : d.value = (magnitude n).toRat) : d.toCode = n := by
  have hround : nearestCode d.toRatio = nearestCode (magnitude n) :=
    Binary64.nearestCode_congr (by rw [toRat_toRatio, h])
  rw [toCode_eq, hround, Binary64.nearestCode_magnitude hn]

/-! ## The fewest digits -/

theorem nearer_eq (tie : Tie) (r : Ratio) (k : ℤ) :
    nearer tie r k = ⟨r.floor, k⟩ ∨ nearer tie r k = ⟨r.floor + 1, k⟩ := by
  dsimp only [nearer]
  split
  · exact .inl rfl
  · exact .inr rfl
  · exact .inr rfl
  · rcases Nat.mod_two_eq_zero_or_one r.floor with heven | hodd
    · rw [heven]
      exact .inl rfl
    · rw [hodd]
      exact .inr rfl

/-- What is found on a grid has been read back. -/
theorem toCode_of_onGrid? {tie : Tie} {n : ℕ} {k : ℤ} {d : Decimal} (h : onGrid? tie n k = some d) :
    d.toCode = n := by
  dsimp only [onGrid?] at h
  split at h
  · next hlow hhigh =>
    obtain rfl := Option.some.inj h
    rcases nearer_eq tie ((magnitude n).scale 10 (-k)) k with heq | heq
    · rw [heq]
      exact of_decide_eq_true hlow
    · rw [heq]
      exact of_decide_eq_true hhigh
  · next hlow hhigh =>
    obtain rfl := Option.some.inj h
    exact of_decide_eq_true hlow
  · next hlow hhigh =>
    obtain rfl := Option.some.inj h
    exact of_decide_eq_true hhigh
  · cases h

/-- On a grid that is fine enough a magnitude is a whole number of units. -/
theorem exists_units (n : ℕ) {k : ℤ} (hk : k ≤ min (Binary64.exponent n) 0) :
    ∃ m : ℕ, (magnitude n).toRat * 10 ^ (-k) = m := by
  obtain ⟨i, hi⟩ : ∃ i : ℕ, Binary64.exponent n = i + k :=
    ⟨(Binary64.exponent n - k).toNat, by omega⟩
  obtain ⟨j, hj⟩ : ∃ j : ℕ, k = -j := ⟨(-k).toNat, by omega⟩
  have hten : (10 : ℚ) ^ (j : ℤ) = 2 ^ (j : ℤ) * 5 ^ j := by
    rw [zpow_natCast, zpow_natCast, ← mul_pow]
    norm_num
  refine ⟨Binary64.significand n * 2 ^ i * 5 ^ j, ?_⟩
  rw [Binary64.toRat_magnitude, hi, hj, neg_neg, hten, zpow_add₀ two_ne_zero, zpow_neg,
    zpow_natCast, zpow_natCast]
  push_cast
  field_simp

theorem value_floor_scale (n : ℕ) {k : ℤ} (hk : k ≤ min (Binary64.exponent n) 0) :
    value ⟨((magnitude n).scale 10 (-k)).floor, k⟩ = (magnitude n).toRat := by
  obtain ⟨m, hm⟩ := exists_units n hk
  have hfloor : ((magnitude n).scale 10 (-k)).floor = m := by
    rw [Ratio.floor_eq, Ratio.toRat_scale, Nat.cast_ofNat, hm, Nat.floor_natCast]
  rw [value, hfloor, ← hm, mul_assoc, ← zpow_add₀ (by norm_num), neg_add_cancel, zpow_zero, mul_one]

theorem toCode_firstOnGrids (tie : Tie) {n : ℕ} (hn : n < infinityCode) : ∀ (steps : ℕ) (k : ℤ),
    k - steps ≤ min (Binary64.exponent n) 0 → (firstOnGrids tie n steps k).toCode = n := by
  intro steps
  induction steps with
  | zero =>
    intro k hk
    exact toCode_of_value_eq hn (value_floor_scale n (by simpa using hk))
  | succ steps ih =>
    intro k hk
    rw [firstOnGrids]
    cases hgrid : onGrid? tie n k with
    | some d => exact toCode_of_onGrid? hgrid
    | none => exact ih (k - 1) (by push_cast at hk; omega)

theorem toCode_shortest (tie : Tie) {n : ℕ} (hn : n < infinityCode) :
    (shortest tie n).toCode = n := by
  unfold shortest
  split
  · next hzero =>
    subst hzero
    rfl
  · exact toCode_firstOnGrids tie hn _ _ (by omega)

end Decimal

end Calculator
