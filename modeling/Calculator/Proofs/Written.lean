import Calculator.Proofs.Scientific

/-!
# Scientific notation as it is written

What is written of a finite number other than zero: one digit that is not zero, the places that are
asked for, and the place of the leading digit without a plus sign. It denotes the nearest number
with so many places. Rounding may carry through all of the digits, and only then is the exponent
that of the next power of ten.

* `Written`: the parts of a text in scientific notation, and the number that they denote
* `Decimal.written`: those of a decimal
* `roundedTo_bounds`, `Decimal.digits_rounded_lt`: what rounding to places comes to
* `Scientific.writes_nearest`: what is written
-/

namespace Calculator

open Binary64 (magnitude)

/-! ## Texts and their parts -/

/-- The parts of a text in scientific notation: whether it has a minus sign, the digit in front of
the point, the digits behind it and the exponent. -/
structure Written where
  negative : Bool
  lead : Char
  fraction : List Char
  exponent : List Char

/-- The text is a whole number without a plus sign and without zeros in front. -/
def IsPlainInteger (cs : List Char) : Prop :=
  ∃ digits, (cs = digits ∨ cs = '-' :: digits ∧ digits ≠ ['0']) ∧ digits ≠ [] ∧
    (∀ c ∈ digits, c.isDigit = true) ∧ (digits.head? = some '0' → digits = ['0'])

namespace Written

/-- The text with these parts. There is a point only in front of digits. -/
def chars (s : Written) : List Char :=
  (if s.negative then ['-'] else []) ++
    s.lead :: ((if s.fraction = [] then [] else '.' :: s.fraction) ++ 'e' :: s.exponent)

/-- The power of ten that the exponent denotes. -/
def power (s : Written) : ℤ := match s.exponent with
  | '-' :: digits => -Nat.ofDigitChars 10 digits 0
  | digits => Nat.ofDigitChars 10 digits 0

/-- The number that the text denotes. -/
def value (s : Written) : ℚ :=
  (if s.negative then -1 else 1) *
    (Nat.ofDigitChars 10 (s.lead :: s.fraction) 0 * 10 ^ (s.power - s.fraction.length))

/-- The digit in front of the point is not zero, there are as many digits behind the point as asked
for, and nothing in the exponent is superfluous. -/
structure IsNormal (places : ℕ) (s : Written) : Prop where
  lead : s.lead.isDigit = true ∧ s.lead ≠ '0'
  fraction : s.fraction.length = places ∧ ∀ c ∈ s.fraction, c.isDigit = true
  exponent : IsPlainInteger s.exponent

end Written

theorem isPlainInteger_integerChars (k : ℤ) : IsPlainInteger (Decimal.integerChars false k) := by
  have hdigits : ∀ c ∈ Nat.toDigits 10 k.natAbs, c.isDigit = true := fun _ =>
    isDigit_of_mem_toDigits
  have hhead : (Nat.toDigits 10 k.natAbs).head? = some '0' → Nat.toDigits 10 k.natAbs = ['0'] := by
    intro h
    by_cases hzero : k.natAbs = 0
    · rw [hzero]
      rfl
    · exact absurd rfl (head_toDigits_ne_zero hzero '0' h)
  refine ⟨Nat.toDigits 10 k.natAbs, ?_, Nat.toDigits_ne_nil, hdigits, hhead⟩
  rw [Decimal.integerChars]
  split
  · next hneg =>
    refine .inr ⟨rfl, fun h => ?_⟩
    have hnumber := congrArg (Nat.ofDigitChars 10 · 0) h
    simp only [Nat.ofDigitChars_ten_toDigits] at hnumber
    have hzero : k.natAbs = 0 := hnumber
    omega
  · exact .inl rfl

namespace Decimal

/-! ## Decimals as they are written -/

/-- A decimal as it is written with the given number of places. -/
def written (negative : Bool) (places : ℕ) (d : Decimal) : Written where
  negative := negative
  lead := d.digitChars.headD '0'
  fraction := (d.digitChars.drop 1).rightpad places '0'
  exponent := integerChars false d.leadingPlace

section Parts

variable (negative : Bool) (places : ℕ) (d : Decimal)

theorem power_written : (d.written negative places).power = d.leadingPlace := by
  rw [Written.power, written]
  dsimp only
  rw [integerChars]
  by_cases hneg : d.leadingPlace < 0
  · rw [if_pos hneg]
    show -(Nat.ofDigitChars 10 (Nat.toDigits 10 d.leadingPlace.natAbs) 0 : ℤ) = d.leadingPlace
    rw [Nat.ofDigitChars_ten_toDigits]
    omega
  · rw [if_neg hneg, if_neg (by decide)]
    split
    · next digits hdigits =>
      have hmem : '-' ∈ Nat.toDigits 10 d.leadingPlace.natAbs := by
        rw [hdigits]
        exact List.mem_cons_self
      exact absurd (isDigit_of_mem_toDigits hmem) (by decide)
    · rw [Nat.ofDigitChars_ten_toDigits]
      omega

theorem written_of_digitChars {c : Char} {cs : List Char} (hcs : d.digitChars = c :: cs) :
    d.written negative places = ⟨negative, c, cs ++ List.replicate (places - cs.length) '0',
      integerChars false d.leadingPlace⟩ := by
  rw [written, hcs]
  rfl

theorem isNormal_written (hzero : d.digits ≠ 0) (hlt : d.digits < 10 ^ (places + 1)) :
    (d.written negative places).IsNormal places := by
  obtain ⟨c, cs, hcs⟩ := List.exists_cons_of_ne_nil d.digitChars_ne_nil
  have hdigits := d.isDigit_of_mem_digitChars_append (places - cs.length)
  rw [hcs, List.cons_append, List.forall_mem_cons] at hdigits
  have hlength : cs.length ≤ places := by
    have hle : d.digitChars.length ≤ places + 1 :=
      (Nat.length_toDigits_le_iff (by decide) (Nat.succ_pos _)).mpr hlt
    rw [hcs, List.length_cons] at hle
    omega
  rw [written_of_digitChars _ _ _ hcs]
  refine ⟨⟨hdigits.1, ?_⟩, ⟨?_, hdigits.2⟩, isPlainInteger_integerChars _⟩
  · exact head_toDigits_ne_zero hzero c (by rw [← digitChars, hcs]; rfl)
  · rw [List.length_append, List.length_replicate]
    omega

theorem value_written : (d.written negative places).value =
    (if negative then -1 else 1) * d.value := by
  obtain ⟨c, cs, hcs⟩ := List.exists_cons_of_ne_nil d.digitChars_ne_nil
  have hplace : (d.written negative places).power -
      ((cs.length + (places - cs.length) : ℕ) : ℤ) = d.exponent - (places - cs.length : ℕ) := by
    rw [power_written, leadingPlace, hcs, List.length_cons]
    push_cast
    omega
  have hnumber : Nat.ofDigitChars 10 (c :: (cs ++ List.replicate (places - cs.length) '0')) 0 =
      10 ^ (places - cs.length) * d.digits := by
    rw [← List.cons_append, ← hcs, ofDigitChars_digitChars_append]
  rw [Written.value, value]
  rw [written_of_digitChars _ _ _ hcs] at hplace ⊢
  dsimp only at hplace ⊢
  rw [List.length_append, List.length_replicate, hplace, hnumber, zpow_sub₀ (by norm_num),
    zpow_natCast]
  push_cast
  field_simp

end Parts

theorem chars_written (places : ℕ) (x : Float) : Scientific.chars places x =
    ((rounded places (Binary64.code x)).written (Binary64.isNegative x) places).chars := by
  obtain ⟨c, cs, hcs⟩ :=
    List.exists_cons_of_ne_nil (rounded places (Binary64.code x)).digitChars_ne_nil
  rw [Scientific.chars, withExponent, Written.chars, written, leadingPlace]
  dsimp only
  rw [hcs]
  cases Binary64.isNegative x <;> simp

end Decimal

/-! ## Rounding to places -/

theorem roundedTo_bounds {y : ℚ} (hy : 0 < y) (places : ℕ) :
    10 ^ Int.log 10 y ≤ roundedTo places y ∧ roundedTo places y ≤ 10 ^ (Int.log 10 y + 1) := by
  have hlow : (10 : ℚ) ^ Int.log 10 y ≤ y := by
    have hlog := Int.zpow_log_le_self (b := 10) (by decide) hy
    rwa [Nat.cast_ofNat] at hlog
  have hhigh : y ≤ (10 : ℚ) ^ (Int.log 10 y + 1) := by
    have hlog := Int.lt_zpow_succ_log_self (b := 10) (by decide) y
    rw [Nat.cast_ofNat] at hlog
    exact hlog.le
  have hscale : (0 : ℚ) < 10 ^ (places - Int.log 10 y) := zpow_pos (by norm_num) _
  have hunit : (0 : ℚ) < 10 ^ (Int.log 10 y - places) := zpow_pos (by norm_num) _
  have hpower : ∀ (k : ℤ) (m : ℕ), k + (places - Int.log 10 y) = m →
      (10 : ℚ) ^ k * 10 ^ (places - Int.log 10 y) = (10 ^ m : ℕ) ∧
        ((10 ^ m : ℕ) : ℚ) * 10 ^ (Int.log 10 y - places) = 10 ^ k := by
    intro k m hm
    push_cast
    rw [← zpow_natCast, ← hm, ← zpow_add₀ (by norm_num), ← zpow_add₀ (by norm_num)]
    exact ⟨rfl, by congr 1; omega⟩
  constructor
  · obtain ⟨hscaled, hback⟩ := hpower (Int.log 10 y) places (by omega)
    rw [roundedTo, ← hback]
    refine mul_le_mul_of_nonneg_right ?_ hunit.le
    exact_mod_cast le_halfEven (hscaled ▸ mul_le_mul_of_nonneg_right hlow hscale.le)
  · obtain ⟨hscaled, hback⟩ := hpower (Int.log 10 y + 1) (places + 1) (by push_cast; omega)
    rw [roundedTo, ← hback]
    refine mul_le_mul_of_nonneg_right ?_ hunit.le
    exact_mod_cast halfEven_le (mul_nonneg hy.le hscale.le)
      (hscaled ▸ mul_le_mul_of_nonneg_right hhigh hscale.le)

namespace Decimal

section Rounded

variable {n : ℕ} (hn : n ≠ 0) (places : ℕ)

include hn

theorem digits_rounded_ne_zero : (rounded places n).digits ≠ 0 := by
  intro hzero
  have hlow := (roundedTo_bounds (toRat_magnitude_pos hn) places).1
  rw [← value_rounded hn, value, hzero, Nat.cast_zero, zero_mul] at hlow
  exact absurd hlow (not_le.mpr (zpow_pos (by norm_num) _))

/-- One digit too many would be that of a power of ten, which is written as the next one. -/
theorem digits_rounded_lt : (rounded places n).digits < 10 ^ (places + 1) := by
  have hpos := toRat_magnitude_pos hn
  have hnum : (magnitude n).num ≠ 0 := fun hzero => hpos.ne' (Ratio.toRat_eq_zero_iff.mpr hzero)
  have hle : ∀ k : ℤ, Int.log 10 (magnitude n).toRat - places ≤ k →
      ((magnitude n).scale 10 (-k)).nearest ≤ 10 ^ (places + 1) := by
    intro k hk
    have hscale : (0 : ℚ) < 10 ^ (-k) := zpow_pos (by norm_num) _
    have hlog := Int.lt_zpow_succ_log_self (b := 10) (by decide) (magnitude n).toRat
    rw [Ratio.nearest_eq, Ratio.toRat_scale, Nat.cast_ofNat]
    refine halfEven_le (mul_nonneg hpos.le hscale.le) ?_
    rw [Nat.cast_ofNat] at hlog
    calc (magnitude n).toRat * 10 ^ (-k)
        ≤ 10 ^ (Int.log 10 (magnitude n).toRat + 1) * 10 ^ (-k) :=
          mul_le_mul_of_nonneg_right hlog.le hscale.le
      _ = 10 ^ (Int.log 10 (magnitude n).toRat + 1 - k) := by
          rw [← zpow_add₀ (by norm_num), ← sub_eq_add_neg]
      _ ≤ 10 ^ ((places + 1 : ℕ) : ℤ) := zpow_le_zpow_right₀ (by norm_num) (by push_cast; omega)
      _ = (10 ^ (places + 1) : ℕ) := by
          rw [zpow_natCast]
          push_cast
          rfl
  dsimp only [rounded]
  split
  · exact Nat.pow_lt_pow_right (by decide) (Nat.lt_succ_self places)
  · next hne =>
    refine lt_of_le_of_ne (hle _ ?_) hne
    rw [Ratio.log10_eq hnum]
    exact le_max_left _ _

end Rounded

/-! ## The leading place -/

theorem value_eq_mul_zpow_leadingPlace (d : Decimal) :
    d.value = d.digits * 10 ^ (d.leadingPlace - (Ratio.digitCount d.digits - 1 : ℕ)) := by
  have hcount := Ratio.digitCount_pos d.digits
  have hplace : d.leadingPlace = Ratio.digitCount d.digits + d.exponent - 1 := rfl
  rw [value]
  congr 2
  omega

theorem zpow_leadingPlace_le_value {d : Decimal} (hzero : d.digits ≠ 0) :
    10 ^ d.leadingPlace ≤ d.value ∧ d.value < 10 ^ (d.leadingPlace + 1) := by
  obtain ⟨hlow, hhigh⟩ := Ratio.le_lt_of_digitCount hzero
  have hunit : (0 : ℚ) < 10 ^ (d.leadingPlace - (Ratio.digitCount d.digits - 1 : ℕ)) :=
    zpow_pos (by norm_num) _
  have hpower : ∀ (k : ℤ) (m : ℕ), m + (d.leadingPlace - (Ratio.digitCount d.digits - 1 : ℕ)) = k →
      (10 : ℚ) ^ k = (10 ^ m : ℕ) *
        10 ^ (d.leadingPlace - (Ratio.digitCount d.digits - 1 : ℕ)) := by
    rintro _ m rfl
    rw [zpow_add₀ (by norm_num), zpow_natCast, Nat.cast_pow, Nat.cast_ofNat]
  rw [value_eq_mul_zpow_leadingPlace, hpower d.leadingPlace (Ratio.digitCount d.digits - 1)
    (by omega), hpower (d.leadingPlace + 1) (Ratio.digitCount d.digits - 1 + 1) (by omega)]
  exact ⟨mul_le_mul_of_nonneg_right (by exact_mod_cast hlow) hunit.le,
    mul_lt_mul_of_pos_right (by exact_mod_cast hhigh) hunit⟩

theorem toDigits_ten_pow (m : ℕ) : Nat.toDigits 10 (10 ^ m) = '1' :: List.replicate m '0' := by
  induction m with
  | zero => rfl
  | succ m ih =>
    have hpos : 0 < 10 ^ m := Nat.pow_pos (by decide)
    rw [Nat.pow_succ, Nat.toDigits_of_base_le (by decide) (by omega),
      Nat.mul_div_cancel _ (by decide), Nat.mul_mod_left, ih, List.replicate_succ']
    rfl

/-- A decimal that is a power of ten is written with a one and zeros. -/
theorem written_of_value_eq {d : Decimal} (hvalue : d.value = 10 ^ d.leadingPlace)
    (negative : Bool) {places : ℕ} (hnormal : (d.written negative places).IsNormal places) :
    (d.written negative places).lead = '1' ∧
      (d.written negative places).fraction = List.replicate places '0' := by
  have hdigits : d.digits = 10 ^ (Ratio.digitCount d.digits - 1) := by
    rw [value_eq_mul_zpow_leadingPlace, zpow_sub₀ (by norm_num), zpow_natCast] at hvalue
    have hunit : (0 : ℚ) < 10 ^ d.leadingPlace := zpow_pos (by norm_num) _
    field_simp at hvalue
    exact_mod_cast hvalue
  have hchars : d.digitChars = '1' :: List.replicate (Ratio.digitCount d.digits - 1) '0' := by
    rw [digitChars, ← toDigits_ten_pow, ← hdigits]
  have hlength := hnormal.fraction.1
  rw [written_of_digitChars _ _ _ hchars] at hlength ⊢
  refine ⟨rfl, List.eq_replicate_iff.mpr ⟨hlength, fun a ha => ?_⟩⟩
  rcases List.mem_append.mp ha with ha | ha <;> exact List.eq_of_mem_replicate ha

end Decimal

namespace Scientific

open Binary64 (isFinite code toRat)

/-- A finite number `x` other than zero is written with one digit that is not zero, the places that
are asked for behind the point and an exponent without a plus sign or needless zeros, and with a
minus sign if it is below zero. The text denotes a number that is no farther from `x` than half a
unit in the last place. The exponent is the power of ten at which the leading digit of `x` stands,
or the next one if rounding carries through all digits, which are then a one and zeros. -/
theorem writes_nearest {x : Float} (hfinite : isFinite x = true) (hzero : x ≠ 0.0 ∧ x ≠ -0.0)
    {places : ℕ} (hplaces : places ≤ 65535) :
    ∃ (E : ℤ) (s : Written), 10 ^ E ≤ |toRat x| ∧ |toRat x| < 10 ^ (E + 1) ∧
      text? places x = some (String.ofList s.chars) ∧ s.IsNormal places ∧
      (s.negative = true ↔ toRat x < 0) ∧
      |s.value - toRat x| ≤ 1 / 2 * 10 ^ (E - places) ∧
      (s.power = E ∨ s.power = E + 1 ∧ s.lead = '1' ∧ s.fraction = List.replicate places '0') := by
  have hcode : code x ≠ 0 := fun h => not_or.mpr hzero (Binary64.code_eq_zero_iff.mp h)
  have hpos := Decimal.toRat_magnitude_pos hcode
  have hrounded := Decimal.value_rounded hcode places
  have hnormal := (Decimal.rounded places (code x)).isNormal_written (Binary64.isNegative x) places
    (Decimal.digits_rounded_ne_zero hcode places) (Decimal.digits_rounded_lt hcode places)
  have hlow := Int.zpow_log_le_self (b := 10) (by decide) hpos
  have hhigh := Int.lt_zpow_succ_log_self (b := 10) (by decide) (magnitude (code x)).toRat
  rw [Nat.cast_ofNat] at hlow hhigh
  refine ⟨Int.log 10 (magnitude (code x)).toRat,
    (Decimal.rounded places (code x)).written (Binary64.isNegative x) places,
    by rwa [Binary64.abs_toRat], by rwa [Binary64.abs_toRat], ?_, hnormal, ?_, ?_, ?_⟩
  · rw [text?_eq_some hfinite hcode hplaces, Decimal.chars_written]
  · show Binary64.isNegative x = true ↔ toRat x < 0
    rw [toRat]
    cases Binary64.isNegative x
    · simpa using hpos.le
    · simpa using hpos
  · have hnear := abs_halfEven_mul_zpow_sub_le hpos.le
      (Int.log 10 (magnitude (code x)).toRat - places)
    rw [neg_sub, ← roundedTo, ← hrounded] at hnear
    rw [Decimal.value_written, toRat]
    cases Binary64.isNegative x with
    | false => simpa using hnear
    | true =>
      rw [if_pos rfl, if_pos rfl, neg_one_mul, sub_neg_eq_add, neg_add_eq_sub, abs_sub_comm]
      exact hnear
  · obtain ⟨hleast, hmost⟩ := roundedTo_bounds hpos places
    obtain ⟨hplace, hplace'⟩ := Decimal.zpow_leadingPlace_le_value
      (Decimal.digits_rounded_ne_zero hcode places)
    rw [← hrounded] at hleast hmost
    have hup := (zpow_le_zpow_iff_right₀ (by norm_num)).mp (hplace.trans hmost)
    have hdown := (zpow_lt_zpow_iff_right₀ (by norm_num)).mp (hleast.trans_lt hplace')
    rw [Decimal.power_written]
    refine (eq_or_ne _ _).imp_right fun hne => ?_
    have hcarry : (Decimal.rounded places (code x)).leadingPlace =
        Int.log 10 (magnitude (code x)).toRat + 1 := by omega
    rw [← hcarry] at hmost
    exact ⟨hcarry, Decimal.written_of_value_eq (hmost.antisymm hplace) _ hnormal⟩

/-- Rounded to one place, 9.96 becomes ten. -/
theorem writes_nearest_carry : text? 1 9.96 = some "1.0e1" ∧
    ∃ (E : ℤ) (s : Written), 10 ^ E ≤ |toRat 9.96| ∧ |toRat 9.96| < 10 ^ (E + 1) ∧
      String.ofList s.chars = "1.0e1" ∧ s.IsNormal 1 ∧
      |s.value - toRat 9.96| ≤ 1 / 2 * 10 ^ (E - (1 : ℕ)) := by
  have htext : text? 1 9.96 = some "1.0e1" := by decide +kernel
  obtain ⟨E, s, hlow, hhigh, htext', hnormal, -, hnear, -⟩ :=
    @writes_nearest 9.96 (by decide +kernel) ⟨by decide +kernel, by decide +kernel⟩ 1 (by decide)
  exact ⟨htext, E, s, hlow, hhigh, Option.some.inj (htext'.symm.trans htext), hnormal, hnear⟩

end Scientific

end Calculator
