import Sokoban.Power
import Sokoban.Rounding

/-! # Decimal numbers

A decimal is a sign, a whole number below `2 ^ 96` and a count of decimal places of at most 28.
Sums and quotients are exact where a decimal can hold them.  Otherwise they are rounded once, half
to even, to as many places as fit; a result too large for a decimal without places is an overflow.

The bounds are part of the type, so that no operation can give a number that is out of range.
Several decimals stand for one number, with more or fewer zeros at their ends, and nought has two
signs; `same` compares numbers, and `normalize` picks one decimal for each.
-/

namespace Sokoban

/-- The number `mantissa / 10 ^ scale`, or its negative. -/
structure Decimal where
  negative : Bool
  mantissa : Nat
  scale : Nat
  mantissa_lt : mantissa < twoPow 96
  scale_le : scale ≤ 28
deriving DecidableEq, Repr

namespace Decimal

/-- Why a sum, difference or quotient is no decimal. -/
inductive Fault where
  | additionOverflow
  | subtractionOverflow
  | divisionOverflow
  | divisionByZero
deriving DecidableEq, Repr

/-- The wording of a fault. -/
def Fault.message : Fault → String
  | additionOverflow => "Addition overflowed"
  | subtractionOverflow => "Subtraction overflowed"
  | divisionOverflow => "Division overflowed"
  | divisionByZero => "Division by zero"

/-- The decimal with these parts, if they are within bounds. -/
def ofParts? (negative : Bool) (mantissa scale : Nat) : Option Decimal :=
  if h : mantissa < twoPow 96 ∧ scale ≤ 28 then
    some ⟨negative, mantissa, scale, h.1, h.2⟩
  else
    none

/-- Nought. -/
def zero : Decimal := ⟨false, 0, 0, by decide, by decide⟩

/-- One. -/
def one : Decimal := ⟨false, 1, 0, by decide, by decide⟩

/-- One quarter, with two places. -/
def quarter : Decimal := ⟨false, 25, 2, by decide, by decide⟩

/-- Whether the number is nought, of either sign. -/
def isZero (d : Decimal) : Bool :=
  d.mantissa == 0

/-- Whether the number is below nought. -/
def isNegative (d : Decimal) : Bool :=
  d.negative && !d.isZero

/-- The number times `10 ^ places`, for at least as many places as it has. -/
def shifted (d : Decimal) (places : Nat) : Int :=
  let magnitude : Int := (d.mantissa * tenPow (places - d.scale) : Nat)
  if d.negative then -magnitude else magnitude

/-- Whether two decimals are the same number, whatever their places. -/
def same (a b : Decimal) : Bool :=
  a.shifted 28 == b.shifted 28

/-- Whether one number is below another. -/
def lt (a b : Decimal) : Bool :=
  a.shifted 28 < b.shifted 28

/-- The number with the sign turned. -/
def neg (d : Decimal) : Decimal :=
  { d with negative := !d.negative }

/-- The number `num / den` with the most places, up to `places`, at which its rounded mantissa is
within bounds. -/
def fit? (negative : Bool) (num den : Nat) : Nat → Option Decimal
  | 0 => ofParts? negative (Rounding.halfEven num den) 0
  | places + 1 =>
    (ofParts? negative (Rounding.halfEven (num * tenPow (places + 1)) den) (places + 1)).orElse
      fun _ => fit? negative num den places

/-- The sum, or none if it overflows. -/
def sum? (a b : Decimal) : Option Decimal :=
  let places := max a.scale b.scale
  let total := a.shifted places + b.shifted places
  fit? (total < 0) total.natAbs (tenPow places) places

/-- The sum. -/
def add (a b : Decimal) : Except Fault Decimal :=
  (sum? a b).elim (.error .additionOverflow) .ok

/-- The difference. -/
def sub (a b : Decimal) : Except Fault Decimal :=
  (sum? a b.neg).elim (.error .subtractionOverflow) .ok

/-- The number `num / den`, or its negative, to as many places as fit. -/
def quotient (negative : Bool) (num den : Nat) : Except Fault Decimal :=
  if den = 0 then .error .divisionByZero
  else (fit? negative num den 28).elim (.error .divisionOverflow) .ok

/-- The quotient of two decimals. -/
def div (a b : Decimal) : Except Fault Decimal :=
  quotient (a.negative != b.negative) (a.mantissa * tenPow b.scale) (b.mantissa * tenPow a.scale)

/-- The quotient of a decimal and a whole number. -/
def divNat (a : Decimal) (n : Nat) : Except Fault Decimal :=
  quotient a.negative a.mantissa (n * tenPow a.scale)

/-- The sum of a list, from left to right and starting from nought. -/
def sum (ds : List Decimal) : Except Fault Decimal :=
  ds.foldlM add zero

/-- The mantissa and scale without the zeros at the end of the places. -/
def dropZeros (mantissa : Nat) : Nat → Nat × Nat
  | 0 => (mantissa, 0)
  | scale + 1 =>
    if mantissa % 10 = 0 then dropZeros (mantissa / 10) scale else (mantissa, scale + 1)

/-- Dropping zeros leaves a mantissa that fits and no more places, so the parts are a decimal again.
-/
theorem dropZeros_le (mantissa scale : Nat) :
    (dropZeros mantissa scale).1 ≤ mantissa ∧ (dropZeros mantissa scale).2 ≤ scale := by
  induction scale generalizing mantissa with
  | zero => simp [dropZeros]
  | succ scale ih =>
    unfold dropZeros
    split
    · have h := ih (mantissa / 10)
      constructor <;> omega
    · simp

/-- The same number with no more places than it needs; nought without a sign. -/
def normalize (d : Decimal) : Decimal :=
  { negative := d.isNegative
    mantissa := (dropZeros d.mantissa d.scale).1
    scale := (dropZeros d.mantissa d.scale).2
    mantissa_lt := Nat.lt_of_le_of_lt (dropZeros_le d.mantissa d.scale).1 d.mantissa_lt
    scale_le := Nat.le_trans (dropZeros_le d.mantissa d.scale).2 d.scale_le }

end Decimal

end Sokoban
