import Calculator.Binary64

/-!
# Decimals

A decimal is a whole number of units of a power of ten. This file reads a decimal into the
nearest double and chooses the decimals by which doubles are written.

* `Decimal.toFloat`: the nearest double
* `Decimal.shortest`: the fewest digits that read back to a given double
* `Decimal.rounded`: the nearest decimal with no more than a given number of digits
-/

namespace Calculator

/-- The number `digits * 10 ^ exponent`. -/
structure Decimal where
  digits : Nat
  exponent : Int
  deriving DecidableEq, Repr

namespace Decimal

/-- The decimal as a quotient. -/
def toRatio (d : Decimal) : Ratio := (Ratio.ofNat d.digits).scale 10 d.exponent

/-! ## Reading -/

/-- The decimal with its exponent brought near zero. A non-zero decimal is far above every finite
double already at the upper bound, and far below the least one at the lower bound, so the double
it reads to stays the same and no huge power of ten is ever computed. -/
def tempered (d : Decimal) : Decimal :=
  { d with exponent := max (-(400 + d.digits.log2 : Nat)) (min 400 d.exponent) }

/-- The code of the double nearest to the decimal. -/
def toCode (d : Decimal) : Nat := Binary64.nearestCode d.tempered.toRatio

/-- The double nearest to the decimal, halves to even, infinity when it is too great. -/
def toFloat (d : Decimal) : Float := Binary64.ofCode d.toCode

/-! ## The fewest digits that read back -/

/-- What becomes of a magnitude that lies in the middle of two decimals which both read back. -/
inductive Tie where
  | toEven
  | upward
  deriving DecidableEq, Repr

/-- Of the decimals `low * 10 ^ k` and `(low + 1) * 10 ^ k` around a quotient `r`, given in units
of `10 ^ k`, the nearer one. -/
def nearer (tie : Tie) (r : Ratio) (k : Int) : Decimal :=
  let low := r.floor
  match compare (2 * r.num) ((2 * low + 1) * r.den), tie with
  | .lt, _ => ⟨low, k⟩
  | .gt, _ => ⟨low + 1, k⟩
  | .eq, .upward => ⟨low + 1, k⟩
  | .eq, .toEven => ⟨low + low % 2, k⟩

/-- A whole number of units of `10 ^ k` that reads back to the code `n`, if there is one. If there
are any, one of the two neighbours of the magnitude is among them. -/
def onGrid? (tie : Tie) (n : Nat) (k : Int) : Option Decimal :=
  let r := (Binary64.magnitude n).scale 10 (-k)
  let low : Decimal := ⟨r.floor, k⟩
  let high : Decimal := ⟨r.floor + 1, k⟩
  match decide (low.toCode = n), decide (high.toCode = n) with
  | true, true => some (nearer tie r k)
  | true, false => some low
  | false, true => some high
  | false, false => none

/-- The first decimal that reads back on the grids of `10 ^ k`, `10 ^ (k - 1)` and so on, and the
magnitude itself on the grid where the given number of steps ends. -/
def firstOnGrids (tie : Tie) (n : Nat) : Nat → Int → Decimal
  | 0, k => ⟨((Binary64.magnitude n).scale 10 (-k)).floor, k⟩
  | steps + 1, k => (onGrid? tie n k).getD (firstOnGrids tie n steps (k - 1))

/-- A decimal with the fewest digits among those that read back to the finite code `n`, and the
nearest of these. The search goes from the power of ten above the magnitude down to the grid on
which the magnitude itself is a whole number: `2 ^ q` is a multiple of `10 ^ q` for `q ≤ 0`. -/
def shortest (tie : Tie) (n : Nat) : Decimal :=
  if n = 0 then ⟨0, 0⟩
  else
    let top := (Binary64.magnitude n).log10 + 1
    firstOnGrids tie n (top - min (Binary64.exponent n) 0).toNat top

/-! ## No more than a given number of digits -/

/-- The decimal nearest to the finite magnitude with the code `n`, which is not zero, that has no
digit more than `places` places behind the leading one; halves to even. On the grid of `2 ^ q` with
`q ≤ 0` the magnitude needs no rounding, so no finer grid is used. Rounding up to a power of ten
gives one digit too many, and that digit is a zero. -/
def rounded (places : Nat) (n : Nat) : Decimal :=
  let k := max ((Binary64.magnitude n).log10 - places) (min (Binary64.exponent n) 0)
  let m := ((Binary64.magnitude n).scale 10 (-k)).nearest
  if m = Nat.pow 10 (places + 1) then ⟨Nat.pow 10 places, k + 1⟩ else ⟨m, k⟩

end Decimal

end Calculator
