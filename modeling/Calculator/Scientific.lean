import Calculator.Fault

/-!
# Scientific notation

A number in scientific notation has one digit before the point, a fixed number of places behind it
and an exponent, as in `1.40e1`.

* `Scientific.text?`: a double in scientific notation
* `Scientific.ofText`: the number that a text in scientific notation denotes
-/

namespace Calculator.Scientific

/-- The number of places where nothing else is asked for. -/
def defaultPlaces : Nat := 6

/-- The greatest number of places that can be written. -/
def maxPlaces : Nat := 65535

/-- The characters of a finite double that is not zero. -/
def chars (places : Nat) (x : Float) : List Char :=
  let digits := (Decimal.rounded places (Binary64.code x)).withExponent false places
  if Binary64.isNegative x then '-' :: digits else digits

/-- A double in scientific notation, or nothing if that takes too many places. The numbers without
a leading digit have texts of their own: zero, of either sign, the infinities and NaN. -/
def text? (places : Nat) (x : Float) : Option String :=
  if Binary64.code x = 0 then some "0"
  else if !Binary64.isFinite x then some (Number.text x)
  else if maxPlaces < places then none
  else some (String.ofList (chars places x))

/-- Whether a numeral is in scientific notation: it has an exponent, without a plus sign, and no
point without a digit behind it. -/
def isScientific (n : Numeral) : Bool :=
  n.fraction ≠ some [] && n.exponent.any fun x => x.sign ≠ some .plus

/-- The number that a text in scientific notation denotes. -/
def ofChars? (cs : List Char) : Option Float :=
  match Sign.split cs with
  | (some .plus, _) => none
  | (sign, digits) => ((Numeral.ofChars? digits).filter isScientific).map fun n =>
    Sign.apply sign n.toFloat

/-- The number that a text in scientific notation denotes; any other text is a fault. -/
def ofText (text : String) : Except Fault Float :=
  match ofChars? text.toList with
  | some x => .ok x
  | none => .error (.notScientific text)

example : text? 2 (-0.00042) = some "-4.20e-4" := by decide +kernel

example : text? 0 8.5 = some "8e0" := by decide +kernel

example : text? 0 9.5 = some "1e1" := by decide +kernel

example : text? (maxPlaces + 1) 1.0 = none := by decide +kernel

example : ofChars? "1.5e+3".toList = none := by decide +kernel

end Calculator.Scientific
