import Calculator.Decimal

/-!
# Numerals

A numeral is a decimal as it is written: digits, perhaps a point and more digits, perhaps an
exponent. Every reader of numbers reads the same numerals and then restricts their shape.

* `Numeral.ofChars?`: the numeral that a text spells, if it spells one as a whole
* `Numeral.toFloat`: the nearest double
* `signed`: a text that may begin with a sign
-/

namespace Calculator

/-- A written sign. -/
inductive Sign where
  | plus
  | minus
  deriving DecidableEq, Repr

namespace Sign

/-- The number with a written sign in front, or with none. -/
def apply : Option Sign → Float → Float
  | some .minus, x => -x
  | _, x => x

/-- The sign at the front of a text, if there is one, and the text after it. -/
def split : List Char → Option Sign × List Char
  | '+' :: cs => (some .plus, cs)
  | '-' :: cs => (some .minus, cs)
  | cs => (none, cs)

end Sign

/-- The exponent of a numeral: its sign, if one is written, and its digits. -/
structure Exponent where
  sign : Option Sign
  digits : List Char
  deriving DecidableEq, Repr

namespace Exponent

/-- The exponent that the text after the marker spells. -/
def ofChars? (cs : List Char) : Option Exponent :=
  let (sign, digits) := Sign.split cs
  if digits ≠ [] ∧ digits.all Char.isDigit then some ⟨sign, digits⟩ else none

def value (x : Exponent) : Int :=
  let n : Int := Nat.ofDigitChars 10 x.digits 0
  if x.sign = some .minus then -n else n

end Exponent

/-- A decimal without a sign, as it is written: the digits before the point, those after it if there
is a point, and the exponent if there is one. -/
structure Numeral where
  whole : List Char
  fraction : Option (List Char)
  exponent : Option Exponent
  deriving DecidableEq, Repr

namespace Numeral

/-- The digits after the point, if there is a point, and the text after them. -/
def splitFraction : List Char → Option (List Char) × List Char
  | '.' :: cs => (some (cs.takeWhile Char.isDigit), cs.dropWhile Char.isDigit)
  | cs => (none, cs)

/-- The digits on both sides of the point. -/
def digits (n : Numeral) : List Char := n.whole ++ n.fraction.getD []

/-- The numeral that a text spells. It has a digit before or after the point, and a marker `e` or
`E` stands before its exponent. -/
def ofChars? (cs : List Char) : Option Numeral :=
  let whole := cs.takeWhile Char.isDigit
  let (fraction, rest) := splitFraction (cs.dropWhile Char.isDigit)
  if whole ++ fraction.getD [] = [] then none
  else match rest with
    | [] => some ⟨whole, fraction, none⟩
    | c :: rest =>
      if c = 'e' ∨ c = 'E' then
        (Exponent.ofChars? rest).map fun x => ⟨whole, fraction, some x⟩
      else none

/-- The decimal that a numeral stands for: each digit after the point takes one from the
exponent. -/
def toDecimal (n : Numeral) : Decimal where
  digits := Nat.ofDigitChars 10 n.digits 0
  exponent := (n.exponent.map Exponent.value).getD 0 - (n.fraction.getD []).length

/-- The double nearest to a numeral. -/
def toFloat (n : Numeral) : Float := n.toDecimal.toFloat

end Numeral

end Calculator
