import Calculator.Decimal

/-!
# How decimals are laid out

A decimal is written either positionally, with the point among its digits or beside them, or with
an exponent behind its leading digit. A `Layout` gathers what one format of numbers decides about
that, and writes finite doubles accordingly.

* `Decimal.positional`, `Decimal.withExponent`: the two forms
* `Layout.write`: a finite double in the fewest digits that read back
-/

namespace Calculator

namespace Decimal

/-- The decimal digits of the whole number, most significant first. -/
def digitChars (d : Decimal) : List Char := Nat.toDigits 10 d.digits

/-- The place of the leading digit: the `e` with `10 ^ e` at most the decimal. -/
def leadingPlace (d : Decimal) : Int := d.digitChars.length + d.exponent - 1

/-- The decimal without an exponent. If `pointZero` holds, a whole number ends in a point and a
zero. -/
def positional (pointZero : Bool) (d : Decimal) : List Char :=
  let ds := d.digitChars
  let point : Int := ds.length + d.exponent
  if point ≤ 0 then '0' :: '.' :: (List.replicate (-point).toNat '0' ++ ds)
  else if d.exponent < 0 then ds.take point.toNat ++ '.' :: ds.drop point.toNat
  else ds ++ List.replicate d.exponent.toNat '0' ++ if pointZero then ['.', '0'] else []

/-- A whole number of either sign. If `plus` holds, a number that is not negative gets a sign as
well. -/
def integerChars (plus : Bool) (k : Int) : List Char :=
  if k < 0 then '-' :: Nat.toDigits 10 k.natAbs
  else if plus then '+' :: Nat.toDigits 10 k.natAbs
  else Nat.toDigits 10 k.natAbs

/-- The decimal with its point behind the leading digit, the digits behind the point filled up with
zeros to the given number of places, and the place of the leading digit as the exponent. -/
def withExponent (plus : Bool) (places : Nat) (d : Decimal) : List Char :=
  let ds := d.digitChars
  let fraction := (ds.drop 1).rightpad places '0'
  ds.take 1 ++ (if fraction = [] then [] else '.' :: fraction) ++
    'e' :: integerChars plus (ds.length + d.exponent - 1)

end Decimal

/-- The decisions of a format that writes doubles in the fewest digits. -/
structure Layout where
  /-- The places of the leading digit at which numbers are written without an exponent. -/
  isPositional : Int → Bool
  /-- Whether a whole number without an exponent ends in a point and a zero. -/
  pointZero : Bool
  /-- Whether an exponent that is not negative has a plus sign. -/
  plus : Bool
  /-- Which of two equally near decimals is written. -/
  tie : Decimal.Tie

namespace Layout

/-- The magnitude with a finite code. -/
def writeMagnitude (l : Layout) (n : Nat) : List Char :=
  let d := Decimal.shortest l.tie n
  if l.isPositional d.leadingPlace then d.positional l.pointZero else d.withExponent l.plus 0

/-- A finite double, its sign in front if the sign bit is set. -/
def write (l : Layout) (x : Float) : List Char :=
  let digits := l.writeMagnitude (Binary64.code x)
  if Binary64.isNegative x then '-' :: digits else digits

end Layout

end Calculator
