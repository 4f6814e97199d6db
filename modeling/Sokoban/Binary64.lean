import Sokoban.Power
import Sokoban.Rounding

/-! # Binary floating point

Non-negative numbers with 53 binary digits, the format in which numbers of a JSON text are usually
held.  Each operation is the exact result rounded to the nearest such number, half to even.  The
range is not bounded above; below, the last binary digit is never worth less than `2 ^ -1074`.

A number is a mantissa and an exponent, and every operation forms the exact quotient of whole
numbers before it rounds.  Whether a result would be infinite is asked apart, by `isFinite`.
-/

namespace Sokoban

/-- The number `mantissa * 2 ^ exponent`. -/
structure Binary64 where
  mantissa : Nat
  exponent : Int
deriving DecidableEq, Repr

namespace Binary64

/-- The exponent of the last binary digit of the smallest numbers. -/
def minExponent : Int := -1074

/-- Whether `num / den` is at least `2 ^ power`. -/
def reaches (num den : Nat) (power : Int) : Bool :=
  den * twoPow power.toNat ≤ num * twoPow (-power).toNat

/-- The exponent of the last of 53 binary digits of `num / den`. -/
def lastExponent (num den : Nat) : Int :=
  let guess : Int := num.log2 - den.log2
  max minExponent ((if reaches num den guess then guess else guess - 1) - 52)

/-- The number nearest to `num / den`. -/
def ofRatio (num den : Nat) : Binary64 :=
  if num = 0 then
    ⟨0, 0⟩
  else
    let exponent := lastExponent num den
    let mantissa := Rounding.halfEven (num * twoPow (-exponent).toNat) (den * twoPow exponent.toNat)
    if mantissa < twoPow 53 then ⟨mantissa, exponent⟩ else ⟨mantissa / 2, exponent + 1⟩

/-- The number nearest to a whole number. -/
def ofNat (n : Nat) : Binary64 :=
  ofRatio n 1

/-- The numerator of the number as a fraction. -/
def num (x : Binary64) : Nat :=
  x.mantissa * twoPow x.exponent.toNat

/-- The denominator of the number as a fraction. -/
def den (x : Binary64) : Nat :=
  twoPow (-x.exponent).toNat

/-- The sum. -/
def add (x y : Binary64) : Binary64 :=
  ofRatio (x.num * y.den + y.num * x.den) (x.den * y.den)

/-- The product. -/
def mul (x y : Binary64) : Binary64 :=
  ofRatio (x.num * y.num) (x.den * y.den)

/-- The quotient. -/
def div (x y : Binary64) : Binary64 :=
  ofRatio (x.num * y.den) (x.den * y.num)

/-- The nearest whole number; half way, the larger one. -/
def round (x : Binary64) : Nat :=
  Rounding.halfUp x.num x.den

/-- The product of `start` and a power of `base`, by repeated squaring. -/
def powerFrom (start base : Binary64) (power : Nat) : Binary64 :=
  if power = 0 then
    start
  else
    powerFrom (if power % 2 = 1 then start.mul base else start) (base.mul base) (power / 2)

end Binary64

end Sokoban
