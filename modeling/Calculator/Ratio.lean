/-!
# Quotients of natural numbers

A non-negative quotient is kept as a pair, never in lowest terms. Reading a decimal into a double
and writing a double as a decimal are one question about such a quotient: measured in a power of
a base, which whole number is it nearest to?

* `Ratio.scale`: the quotient times a power of a base, of either sign
* `Ratio.floor`, `Ratio.nearest`: the whole number below, and the nearest with halves to even
* `Ratio.log2`, `Ratio.log10`: the power of the base at which the leading digit stands
-/

namespace Calculator

/-- The quotient `num / den`. -/
structure Ratio where
  num : Nat
  den : Nat
  den_pos : 0 < den

namespace Ratio

/-- A whole number as a quotient. -/
def ofNat (n : Nat) : Ratio := ⟨n, 1, Nat.one_pos⟩

/-- The power of a base to an exponent, and one if the exponent is negative. -/
def power (b : Nat) (k : Int) : Nat := Nat.pow b k.toNat

theorem power_pos {b : Nat} (hb : 0 < b) (k : Int) : 0 < power b k := Nat.pow_pos hb

/-- The quotient times `b ^ k`. -/
def scale (r : Ratio) (b : Nat) (k : Int) (hb : 0 < b := by decide) : Ratio where
  num := r.num * power b k
  den := r.den * power b (-k)
  den_pos := Nat.mul_pos r.den_pos (power_pos hb (-k))

/-- The greatest whole number that is not above the quotient. -/
def floor (r : Ratio) : Nat := r.num / r.den

/-- The whole number nearest to the quotient, the even one of two that are equally near. -/
def nearest (r : Ratio) : Nat :=
  let q := r.num / r.den
  let twice := 2 * (r.num % r.den)
  if twice < r.den ∨ twice = r.den ∧ q % 2 = 0 then q else q + 1

/-- Whether the quotient is `b ^ k` or more. -/
def reaches (r : Ratio) (b : Nat) (k : Int) : Bool :=
  r.den * power b k ≤ r.num * power b (-k)

/-! ## The leading digit

With `2 ^ i ≤ num < 2 ^ (i + 1)` and `2 ^ j ≤ den < 2 ^ (j + 1)` the quotient lies between
`2 ^ (i - j - 1)` and `2 ^ (i - j + 1)`, so one comparison settles its exponent; likewise with
tens. -/

/-- The largest `k` with `2 ^ k` at most the quotient, which is not zero. -/
def log2 (r : Ratio) : Int :=
  let k : Int := r.num.log2 - r.den.log2
  if r.reaches 2 k then k else k - 1

/-- The number of decimal digits of a whole number. -/
def digitCount (n : Nat) : Nat := (Nat.toDigits 10 n).length

/-- The largest `k` with `10 ^ k` at most the quotient, which is not zero. -/
def log10 (r : Ratio) : Int :=
  let k : Int := digitCount r.num - digitCount r.den
  if r.reaches 10 k then k else k - 1

end Ratio

end Calculator
