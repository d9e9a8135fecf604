import Calculator.Proofs.Decimal.Nearest
import Calculator.Proofs.Numerals

/-!
# The grammar of scientific notation

A text in scientific notation is at most a minus sign, digits, at most one point, at least one more
digit, a marker in either case, at most a minus sign and at least one digit. Nothing else is read,
and what is read is rounded once, whatever the number of digits is.

* `Scientific.Form`: the parts of such a text, and the number that they stand for
* `Scientific.reads_forms`: what is read, and as which number
-/

namespace Calculator.Scientific

open Binary64 (IsNearest isNegative isNaN)

/-- The parts of a text in scientific notation: whether there is a minus sign, the digits in front
of the point, whether there is a point, the digits behind it, the marker, whether the exponent has a
minus sign, and its digits. Without a point, any of the digits may be told from the others. -/
structure Form where
  negative : Bool
  whole : List Char
  point : Bool
  fraction : List Char
  marker : Char
  negativePower : Bool
  exponent : List Char
  whole_isDigit : ∀ c ∈ whole, c.isDigit = true
  fraction_ne_nil : fraction ≠ []
  fraction_isDigit : ∀ c ∈ fraction, c.isDigit = true
  marker_eq : marker = 'e' ∨ marker = 'E'
  exponent_ne_nil : exponent ≠ []
  exponent_isDigit : ∀ c ∈ exponent, c.isDigit = true

namespace Form

/-- A minus sign, if there is one. -/
def minus (negative : Bool) : List Char := if negative then ['-'] else []

/-- What stands behind the sign. -/
def unsignedChars (f : Form) : List Char :=
  f.whole ++ ((if f.point then ['.'] else []) ++ (f.fraction ++
    f.marker :: (minus f.negativePower ++ f.exponent)))

/-- The text with these parts. -/
def chars (f : Form) : List Char := minus f.negative ++ f.unsignedChars

/-- The number in front of the marker, without its sign. -/
def mantissa (f : Form) : ℚ :=
  if f.point then
    Nat.ofDigitChars 10 f.whole 0 + Nat.ofDigitChars 10 f.fraction 0 / 10 ^ f.fraction.length
  else Nat.ofDigitChars 10 (f.whole ++ f.fraction) 0

/-- The power of ten behind the marker. -/
def power (f : Form) : ℤ :=
  if f.negativePower then -Nat.ofDigitChars 10 f.exponent 0 else Nat.ofDigitChars 10 f.exponent 0

/-- The number that the parts stand for, without its sign. -/
def magnitude (f : Form) : ℚ := f.mantissa * 10 ^ f.power

/-- A number with the sign in front. -/
def signed (f : Form) (x : Float) : Float := if f.negative then -x else x

/-! ## Parts and numerals -/

/-- The sign that is written for a minus sign, if there is one. -/
def sign (negative : Bool) : Option Sign := if negative then some .minus else none

theorem map_char_sign (negative : Bool) :
    (sign negative).toList.map Sign.char = minus negative := by
  cases negative <;> simp [sign, minus, Sign.char]

/-- The numeral behind the sign. -/
def numeral (f : Form) : Numeral where
  whole := if f.point then f.whole else f.whole ++ f.fraction
  fraction := if f.point then some f.fraction else none
  exponent := some ⟨sign f.negativePower, f.exponent⟩

variable (f : Form)

theorem digits_numeral : f.numeral.digits = f.whole ++ f.fraction := by
  unfold numeral Numeral.digits
  cases f.point <;> simp

theorem plainChars_numeral : plainChars f.numeral.whole f.numeral.fraction =
    f.whole ++ ((if f.point then ['.'] else []) ++ f.fraction) := by
  unfold numeral plainChars
  cases f.point <;> simp

theorem spelledBy_numeral : f.numeral.SpelledBy f.unsignedChars where
  ne_nil := by
    rw [digits_numeral]
    exact List.append_ne_nil_of_right_ne_nil _ f.fraction_ne_nil
  isDigit := by
    rw [digits_numeral]
    exact List.forall_mem_append.mpr ⟨f.whole_isDigit, f.fraction_isDigit⟩
  chars := by
    refine ⟨f.marker :: (minus f.negativePower ++ f.exponent), ?_, ?_⟩
    · rw [plainChars_numeral]
      simp [unsignedChars]
    · rw [← map_char_sign]
      exact .some f.marker_eq f.exponent_ne_nil f.exponent_isDigit

theorem isScientific_numeral : isScientific f.numeral = true := by
  have hfraction := f.fraction_ne_nil
  unfold isScientific numeral sign
  cases f.point <;> cases f.negativePower <;> simp [hfraction]

theorem value_numeral : f.numeral.value = f.magnitude := by
  have hpower : Exponent.value ⟨sign f.negativePower, f.exponent⟩ = f.power := by
    unfold Exponent.value power sign
    cases f.negativePower <;> simp
  unfold Numeral.value magnitude
  show _ * (10 : ℚ) ^ Exponent.value ⟨sign f.negativePower, f.exponent⟩ = _
  rw [hpower]
  congr 1
  unfold numeral mantissa
  cases f.point <;> simp

/-- Every text with such parts is read, as the number that the numeral behind the sign is. -/
theorem ofChars?_chars : ofChars? f.chars = some (f.signed f.numeral.toFloat) := by
  have hsplit := Sign.split_append (sign f.negative) f.spelledBy_numeral.head_ne_sign
  have hfilter : (Numeral.ofChars? f.unsignedChars).filter isScientific = some f.numeral := by
    rw [f.spelledBy_numeral.ofChars?_eq, Option.filter_some_pos f.isScientific_numeral]
  rw [map_char_sign] at hsplit
  unfold ofChars? chars signed
  rw [hsplit]
  cases f.negative <;> simp [sign, hfilter, Sign.apply]

end Form

/-- What is read has such parts. -/
theorem exists_form_of_ofChars? {cs : List Char} {w : Float} (h : ofChars? cs = some w) :
    ∃ f : Form, cs = f.chars := by
  obtain ⟨first, n, marker, x, hbuilt, -⟩ := exists_built_of_ofChars? h
  obtain ⟨hne, hdigits⟩ := hbuilt.digits
  obtain ⟨whole, fraction, exponent⟩ := n
  obtain ⟨hwhole, hfraction⟩ := List.forall_mem_append.mp hdigits
  -- A sign that is no plus sign is a minus sign or none.
  have hminus : ∀ {sign : Option Sign}, sign ≠ some .plus →
      sign.toList.map Sign.char = Form.minus (decide (sign = some .minus)) := by
    rintro (_ | _ | _) <;> simp [Form.minus, Sign.char]
  rw [hbuilt.chars, hminus hbuilt.sign, hminus hbuilt.exponentSign]
  cases fraction with
  | none =>
    simp only [Numeral.digits, Option.getD_none, List.append_nil] at hne
    refine ⟨⟨decide (first = some .minus), [], false, whole, marker, decide (x.sign = some .minus),
      x.digits, by simp, hne, hwhole, hbuilt.marker, hbuilt.exponentDigits.1,
      hbuilt.exponentDigits.2⟩, ?_⟩
    simp [Form.chars, Form.unsignedChars, plainChars]
  | some fraction =>
    refine ⟨⟨decide (first = some .minus), whole, true, fraction, marker,
      decide (x.sign = some .minus), x.digits, hwhole,
      fun hnil => hbuilt.point (congrArg some hnil), hfraction, hbuilt.marker,
      hbuilt.exponentDigits.1, hbuilt.exponentDigits.2⟩, ?_⟩
    simp [Form.chars, Form.unsignedChars, plainChars]

/-- A text is read in scientific notation exactly if it has the parts of that notation from its
first to its last character. It is then read as the double nearest to the number that they stand
for, with the sign in front, however many digits the mantissa and the exponent have. Any other text
is a fault that keeps it as it is. -/
theorem reads_forms :
    (∀ text, (∃ y, ofText text = .ok y) ↔ ∃ f : Form, text.toList = f.chars) ∧
    (∀ text (f : Form), text.toList = f.chars → ∃ x, IsNearest f.magnitude x ∧
      ofText text = .ok (f.signed x) ∧ isNegative (f.signed x) = f.negative) ∧
    (∀ text, (∀ f : Form, text.toList ≠ f.chars) → ofText text = .error (.notScientific text)) ∧
    ∀ text, (Fault.notScientific text).message =
      s!"Invalid scientific notation format: '{text}'." := by
  have hform : ∀ text (f : Form), text.toList = f.chars →
      ofText text = .ok (f.signed f.numeral.toFloat) := by
    intro text f htext
    rw [ofText_eq_ok_iff, htext, f.ofChars?_chars]
  have hexists : ∀ text y, ofText text = .ok y → ∃ f : Form, text.toList = f.chars := fun _ _ hy =>
    exists_form_of_ofChars? (ofText_eq_ok_iff.mp hy)
  refine ⟨fun text => ⟨fun ⟨y, hy⟩ => hexists text y hy, fun ⟨f, hf⟩ => ⟨_, hform text f hf⟩⟩,
    ?_, ?_, fun text => rfl⟩
  · intro text f htext
    have hnearest := f.numeral.isNearest_toFloat
    rw [f.value_numeral] at hnearest
    refine ⟨f.numeral.toFloat, hnearest, hform text f htext, ?_⟩
    unfold Form.signed
    cases f.negative with
    | false => simpa using hnearest.nonnegative
    | true => simp [Binary64.isNegative_neg hnearest.number, hnearest.nonnegative]
  · intro text hnone
    cases hread : ofText text with
    | ok y =>
      obtain ⟨f, hf⟩ := hexists text y hread
      exact absurd hf (hnone f)
    | error fault =>
      unfold ofText at hread
      split at hread <;> simp_all

/-- A mantissa without digits in front of its point, too small for any double but zero, and a point
without digits behind it. -/
theorem reads_forms_underflow :
    ofText "-.5E-400" = .ok (-0.0) ∧ IsNearest (1 / 2 * 10 ^ (-400 : ℤ)) 0.0 ∧
      ofText "1.e5" = .error (.notScientific "1.e5") := by
  let f : Form := ⟨true, [], true, ['5'], 'E', true, ['4', '0', '0'], by simp, by simp, by simp,
    by simp, by simp, by simp⟩
  have hread : ofText "-.5E-400" = .ok (-0.0) := by decide +kernel
  obtain ⟨x, hnearest, hx, -⟩ := reads_forms.2.1 "-.5E-400" f (by decide +kernel)
  have hneg : -x = -0.0 := by simpa [hread, f, Form.signed] using hx.symm
  obtain rfl : x = 0.0 := by
    rw [← Binary64.neg_neg_eq_self hnearest.number, hneg]
    exact Binary64.neg_neg_eq_self (by decide)
  have hmagnitude : f.magnitude = 1 / 2 * 10 ^ (-400 : ℤ) := by
    have hfive : Nat.ofDigitChars 10 ['5'] 0 = 5 := by decide
    have hpower : Nat.ofDigitChars 10 ['4', '0', '0'] 0 = 400 := by decide
    norm_num [f, Form.magnitude, Form.mantissa, Form.power, hfive, hpower]
  rw [hmagnitude] at hnearest
  have hpoint : ∀ f : Form, "1.e5".toList ≠ f.chars := by
    intro f hf
    obtain ⟨y, hy⟩ := (reads_forms.1 "1.e5").mpr ⟨f, hf⟩
    have hnone : ofChars? "1.e5".toList = none := by decide +kernel
    rw [ofText_eq_ok_iff, hnone] at hy
    exact absurd hy (by simp)
  exact ⟨hread, hnearest, reads_forms.2.2.1 "1.e5" hpoint⟩

end Calculator.Scientific
