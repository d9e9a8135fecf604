import Calculator.Ratio

/-!
# Doubles as codes

The bits of a double without the sign bit, read as a natural number, are its *code*. Codes grow
with the magnitude: the finite magnitudes in ascending order have the codes from zero up, then
comes infinity, and every greater code is NaN. Rounding a quotient to a double is therefore
finding a code.

* `Binary64.code`, `Binary64.isNegative`: the two parts of a double
* `Binary64.isNaN`, `Binary64.isFinite`: the kinds of doubles
* `Binary64.significand`, `Binary64.exponent`: a finite magnitude as `m * 2 ^ q`
* `Binary64.nearestCode`: the code of the magnitude nearest to a quotient
-/

namespace Calculator.Binary64

/-- The number of magnitudes that have the same exponent field, `2 ^ 52`. -/
def blockSize : Nat := 0x10000000000000

/-- The sign bit, `2 ^ 63`: there are 2048 exponent fields. -/
def signBit : Nat := 2048 * blockSize

/-- The code of infinity, one above the code of the greatest finite magnitude. -/
def infinityCode : Nat := 2047 * blockSize

/-- The bits of a double below its sign. -/
def code (x : Float) : Nat := x.toBits.toNat % signBit

/-- Whether the sign bit is set. -/
def isNegative (x : Float) : Bool := decide (signBit ≤ x.toBits.toNat)

/-- Whether a double is NaN. -/
def isNaN (x : Float) : Bool := decide (infinityCode < code x)

/-- Whether a double is neither infinite nor NaN. -/
def isFinite (x : Float) : Bool := decide (code x < infinityCode)

/-- The double with the given code and a clear sign bit. -/
def ofCode (n : Nat) : Float := Float.ofBits n.toUInt64

/-! ## The value of a finite code -/

/-- The whole number `m` of the magnitude `m * 2 ^ q`: the fraction field, with the leading bit
that normal magnitudes leave out. -/
def significand (n : Nat) : Nat := if n < blockSize then n else blockSize + n % blockSize

/-- The exponent `q` of the magnitude `m * 2 ^ q`, never below that of the subnormals. -/
def exponent (n : Nat) : Int := if n < blockSize then -1074 else (n / blockSize : Nat) - 1075

/-- The magnitude that a finite code stands for. -/
def magnitude (n : Nat) : Ratio := (Ratio.ofNat (significand n)).scale 2 (exponent n)

/-! ## Rounding -/

/-- The exponent `q` of the magnitudes `m * 2 ^ q` beside a quotient that is not zero. -/
def gridExponent (r : Ratio) : Int := max (r.log2 - 52) (-1074)

/-- The code of the magnitude nearest to a quotient, the even code of two that are equally near,
and the code of infinity from half a step above the greatest finite magnitude on.

On the grid of `2 ^ q` the quotient becomes `m` with `m ≤ 2 ^ 53`, and the code of `m * 2 ^ q` is
`m` plus one block of codes for each exponent from the least up to `q`. A carry to `2 ^ 53` runs
into the next block by itself. -/
def nearestCode (r : Ratio) : Nat :=
  if r.num = 0 then 0
  else
    let q := gridExponent r
    min infinityCode ((r.scale 2 (-q)).nearest + blockSize * (q + 1074).toNat)

end Calculator.Binary64
