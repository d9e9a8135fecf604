import Calculator.Scientific
import Calculator.Proofs.Binary64.Sign
import Calculator.Proofs.Decimal.Rounded
import Calculator.Proofs.NumberText

/-!
# Scientific notation that is read back

A finite number other than zero in scientific notation is read as a number with the same sign. It
stays within a unit in the last place of what was written, unless rounding takes it beyond the
finite numbers, and with sixteen places or more it is the very same number.

* `Binary64.toRat`: the value of a finite double
* `Scientific.exists_ofText_chars`: what is read
* `Scientific.reads_back_within_places`: how far it is from what was written
* `Scientific.reads_back_of_sixteen_le`: with sixteen places or more
-/

namespace Calculator

/-! ## Values -/

namespace Binary64

/-- The value of a finite double. -/
def toRat (x : Float) : ℚ :=
  if isNegative x then -(magnitude (code x)).toRat else (magnitude (code x)).toRat

variable {x w : Float}

theorem magnitude_nonneg (n : ℕ) : 0 ≤ (magnitude n).toRat :=
  div_nonneg (Nat.cast_nonneg _) (Nat.cast_nonneg _)

theorem abs_toRat (x : Float) : |toRat x| = (magnitude (code x)).toRat := by
  rw [toRat]
  split
  · rw [abs_neg, abs_of_nonneg (magnitude_nonneg _)]
  · rw [abs_of_nonneg (magnitude_nonneg _)]

theorem abs_toRat_sub (h : isNegative w = isNegative x) :
    |toRat w - toRat x| = |(magnitude (code w)).toRat - (magnitude (code x)).toRat| := by
  rw [toRat, toRat, h]
  split
  · rw [← neg_add', abs_neg, ← sub_eq_add_neg]
  · rfl

end Binary64

open Binary64 (isFinite isNaN isNegative code ofCode toRat overflowBound infinityCode)

namespace Scientific

variable {x : Float} {places : ℕ}

/-! ## What is read -/

theorem ofChars?_of_numeral {cs : List Char} {n : Numeral} (hhead : BeginsWithDigit cs)
    (hn : Numeral.ofChars? cs = some n) (hscientific : isScientific n = true) :
    ofChars? cs = some n.toFloat ∧ ofChars? ('-' :: cs) = some (-n.toFloat) := by
  have hsplit : Sign.split cs = (none, cs) := by
    obtain ⟨c, cs, rfl, hc⟩ := hhead
    apply Sign.split_eq_none
    simpa using ne_sign_of_isDigit hc
  have hfilter : (Numeral.ofChars? cs).filter isScientific = some n := by
    rw [hn, Option.filter_some_pos hscientific]
  constructor
  · rw [ofChars?, hsplit]
    dsimp only
    rw [hfilter]
    rfl
  · show ((Numeral.ofChars? cs).filter isScientific).map _ = _
    rw [hfilter]
    rfl

/-- What is written is read as the code of the decimal behind the sign of the number. -/
theorem exists_ofText_chars (places : ℕ) (x : Float) :
    ∃ w, ofText (String.ofList (chars places x)) = .ok w ∧ isNegative w = isNegative x ∧
      code w = (Decimal.rounded places (code x)).toCode := by
  obtain ⟨n, hn, hvalue, hfraction, e, he, hsign⟩ :=
    (Decimal.rounded places (code x)).exists_numeral_of_withExponent false places
  have hscientific : isScientific n = true := by
    rw [isScientific, he]
    simpa using ⟨hfraction, hsign rfl⟩
  have hread := ofChars?_of_numeral
    ((Decimal.rounded places (code x)).beginsWithDigit_withExponent false places) hn hscientific
  rw [Numeral.toFloat, Decimal.toFloat, Decimal.toCode_congr hvalue] at hread
  have hle := Decimal.toCode_rounded_le places (code x)
  have hnan : isNaN (ofCode (Decimal.rounded places (code x)).toCode) = false := by
    rw [isNaN, Binary64.code_ofCode hle]
    exact decide_eq_false (Nat.not_lt.mpr hle)
  rw [ofText, String.toList_ofList, chars]
  cases hneg : isNegative x with
  | false =>
    refine ⟨_, ?_, Binary64.isNegative_ofCode hle, Binary64.code_ofCode hle⟩
    rw [if_neg (by decide), hread.1]
  | true =>
    refine ⟨_, ?_, ?_, (Binary64.code_neg hnan).trans (Binary64.code_ofCode hle)⟩
    · rw [if_pos rfl, hread.2]
    · rw [Binary64.isNegative_neg hnan, Binary64.isNegative_ofCode hle]
      rfl

/-- A finite number other than zero is written with its digits. -/
theorem text?_eq_some (hfinite : isFinite x = true) (hzero : code x ≠ 0)
    (hplaces : places ≤ maxPlaces) : text? places x = some (String.ofList (chars places x)) := by
  rw [text?, if_neg hzero, hfinite, if_neg (by decide), if_neg (Nat.not_lt.mpr hplaces)]

/-- A finite number other than zero is written and read back as a number with its sign. That number
is finite exactly if rounding to the places stays below the finite numbers' end, and it is then
within a unit in the last place. -/
theorem reads_back_within_places (hfinite : isFinite x = true) (hzero : x ≠ 0.0 ∧ x ≠ -0.0)
    (hplaces : places ≤ maxPlaces) :
    ∃ text w, text? places x = some text ∧ ofText text = .ok w ∧ isNegative w = isNegative x ∧
      isNaN w = false ∧ (isFinite w = true ↔ roundedTo places |toRat x| < overflowBound) ∧
      (isFinite w = true → |toRat w - toRat x| ≤ 10 ^ (-places : ℤ) * |toRat x|) := by
  have hcode : code x ≠ 0 := fun h => not_or.mpr hzero (Binary64.code_eq_zero_iff.mp h)
  obtain ⟨w, hread, hsign, hw⟩ := exists_ofText_chars places x
  have hle := Decimal.toCode_rounded_le places (code x)
  have hreach := Decimal.toCode_rounded_eq_infinityCode_iff hcode places
  rw [← hw] at hle hreach
  have hfinite_iff : isFinite w = true ↔ code w < infinityCode := decide_eq_true_iff
  refine ⟨_, w, text?_eq_some hfinite hcode hplaces, hread, hsign,
    decide_eq_false (Nat.not_lt.mpr hle), ?_, ?_⟩
  · rw [hfinite_iff, Binary64.abs_toRat, lt_iff_le_and_ne, and_iff_right hle, ne_eq, hreach, not_le]
  · intro hfinite'
    rw [hfinite_iff, hw] at hfinite'
    rw [Binary64.abs_toRat_sub hsign, Binary64.abs_toRat, hw]
    exact Decimal.abs_magnitude_toCode_rounded_sub_le hcode hfinite'

/-- To one place the greatest finite number is rounded up to what is read as infinity. -/
theorem reads_back_within_places_greatest : text? 1 (ofCode (infinityCode - 1)) = some "1.8e308" ∧
    ofText "1.8e308" = .ok Number.infinity ∧
      overflowBound ≤ roundedTo 1 |toRat (ofCode (infinityCode - 1))| := by
  have htext : text? 1 (ofCode (infinityCode - 1)) = some "1.8e308" := by decide +kernel
  have hread : ofText "1.8e308" = .ok Number.infinity := by decide +kernel
  have hplaces : 1 ≤ maxPlaces := by decide
  obtain ⟨text, w, htext', hread', -, -, hreach, -⟩ :=
    reads_back_within_places (x := ofCode (infinityCode - 1)) (by decide) ⟨by decide, by decide⟩
      hplaces
  obtain rfl : "1.8e308" = text := Option.some.inj (htext.symm.trans htext')
  obtain rfl : Number.infinity = w := Except.ok.inj (hread.symm.trans hread')
  exact ⟨htext, hread, not_lt.mp fun hlt => absurd (hreach.mpr hlt) (by decide)⟩

/-- With sixteen places or more a finite number other than zero is written and read back as it
was. -/
theorem reads_back_of_sixteen_le (hfinite : isFinite x = true) (hzero : x ≠ 0.0 ∧ x ≠ -0.0)
    (hleast : 16 ≤ places) (hplaces : places ≤ maxPlaces) :
    ∃ text, text? places x = some text ∧ ofText text = .ok x := by
  have hcode : code x ≠ 0 := fun h => not_or.mpr hzero (Binary64.code_eq_zero_iff.mp h)
  obtain ⟨w, hread, hsign, hw⟩ := exists_ofText_chars places x
  rw [Decimal.toCode_rounded_of_sixteen_le hleast hcode (of_decide_eq_true hfinite)] at hw
  rw [Binary64.eq_of_code_eq hsign hw] at hread
  exact ⟨_, text?_eq_some hfinite hcode hplaces, hread⟩

/-- The least of the subnormal numbers. -/
theorem reads_back_of_sixteen_le_least :
    text? 16 (Float.ofBits 1) = some "4.9406564584124654e-324" ∧
      ofText "4.9406564584124654e-324" = .ok (Float.ofBits 1) := by
  have htext : text? 16 (Float.ofBits 1) = some "4.9406564584124654e-324" := by decide +kernel
  obtain ⟨text, htext', hread⟩ := reads_back_of_sixteen_le (x := Float.ofBits 1) (by decide)
    ⟨by decide, by decide⟩ (le_refl 16) (by decide)
  obtain rfl : "4.9406564584124654e-324" = text := Option.some.inj (htext.symm.trans htext')
  exact ⟨htext, hread⟩

end Scientific

end Calculator
