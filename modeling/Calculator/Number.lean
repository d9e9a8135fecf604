import Calculator.Decimal.Layout
import Calculator.Decimal.Numeral
import Calculator.Text.Blank
import Calculator.Text.Case

/-!
# Numbers as plain text

Results and retrieved values are shown without an exponent, however great or small they are, and
the memory reads numbers back in every form in which they are shown.

* `Number.text`: a double as it is shown
* `Number.ofText?`: the number that a text denotes
-/

namespace Calculator.Number

/-- Numbers are shown positionally, whole numbers without a point, and of two equally near
decimals the greater one is taken. -/
def shown : Layout where
  isPositional := fun _ => true
  pointZero := false
  plus := false
  tie := .upward

/-- The characters of `Number.text`. -/
def chars (x : Float) : List Char :=
  if Binary64.isNaN x then ['N', 'a', 'N']
  else if Binary64.isFinite x then shown.write x
  else if Binary64.isNegative x then ['-', 'i', 'n', 'f']
  else ['i', 'n', 'f']

/-- A double as it is shown, with texts of their own for NaN and the infinities. -/
def text (x : Float) : String := String.ofList (chars x)

/-- Positive infinity. -/
def infinity : Float := Binary64.ofCode Binary64.infinityCode

/-- The two names of infinity, in lower case. -/
def infinityNames : List (List Char) := ["inf".toList, "infinity".toList]

/-- The number without a sign that a text denotes: a numeral, or infinity by name in any case. -/
def unsigned? (cs : List Char) : Option Float :=
  if Text.lowercase cs ∈ infinityNames then some infinity
  else (Numeral.ofChars? cs).map Numeral.toFloat

/-- The number that a text denotes, with white space around it and a sign in front allowed. No
text denotes NaN. -/
def ofText? (text : String) : Option Float :=
  let (sign, cs) := Sign.split (Text.trim text.toList)
  (unsigned? cs).map (Sign.apply sign)

example : text 1e21 = "1000000000000000000000" := by decide +kernel

example : text (-0.0) = "-0" := by decide +kernel

example : text 911735058593749.25 = "911735058593749.3" := by decide +kernel

example : ofText? " +.5E1\n" = some 5.0 := by decide +kernel

example : ofText? "-iNFinity" = some (-infinity) := by decide +kernel

example : ofText? "nan" = none := by decide +kernel

end Calculator.Number
