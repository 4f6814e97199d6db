import Sokoban.Binary64
import Sokoban.Text.Blank

/-! # The shortest decimal of a binary number

Every real number between two midpoints rounds to the binary number between them.  The shortest
decimal is one with the fewest digits among those that do, and of these the nearest.  It is found
by trying one digit, two digits and so on: if a decimal with that many digits rounds to the number,
then one of the number's two neighbours on the grid of such decimals does.
-/

namespace Sokoban.Binary64

/-- A number and the midpoints around it, over one denominator.  The midpoints round to the number
as well if its mantissa is even. -/
structure Interval where
  low : Nat
  value : Nat
  high : Nat
  den : Nat
  closed : Bool
deriving Repr

/-- The interval of a number.  Below a power of two the numbers lie twice as close. -/
def interval (x : Binary64) : Interval :=
  let up := twoPow (x.exponent - 2).toNat
  let gap := if x.mantissa = twoPow 52 ∧ minExponent < x.exponent then 1 else 2
  { low := (4 * x.mantissa - gap) * up
    value := 4 * x.mantissa * up
    high := (4 * x.mantissa + 2) * up
    den := twoPow (2 - x.exponent).toNat
    closed := x.mantissa % 2 = 0 }

/-- The same interval in units of `10 ^ power`. -/
def Interval.inUnits (i : Interval) (power : Int) : Interval :=
  let factor := tenPow (-power).toNat
  { i with
    low := i.low * factor
    value := i.value * factor
    high := i.high * factor
    den := i.den * tenPow power.toNat }

/-- Whether the whole number of units lies within the interval. -/
def Interval.holds (i : Interval) (units : Nat) : Bool :=
  let n := units * i.den
  if i.closed then i.low ≤ n && n ≤ i.high else i.low < n && n < i.high

/-- The whole number of units nearest to the value among its two neighbours in the interval. -/
def Interval.nearest? (i : Interval) : Option Nat :=
  let below := i.value / i.den
  match i.holds below, i.holds (below + 1) with
  | false, false => none
  | true, false => some below
  | false, true => some (below + 1)
  | true, true => some (Rounding.halfEven i.value i.den)

/-- The power of ten of the first digit of `num / den`. -/
def leadingPower (num den : Nat) : Int :=
  if den ≤ num then
    (Nat.toDigits 10 (num / den)).length - 1
  else
    match (List.range 400).find? fun k => den ≤ num * tenPow k with
    | some k => -k
    | none => 0

/-- The digits of a number and the power of ten of the first of them. -/
structure Digits where
  digits : List Char
  power : Int
deriving Repr

/-- The fewest digits that round to a number, without zeros at the end. -/
def shortest (x : Binary64) : Digits :=
  let i := x.interval
  let lead := leadingPower i.value i.den
  let found? := (List.range 17).findSome? fun (more : Nat) =>
    let unit := lead - more
    (i.inUnits unit).nearest?.map fun units =>
      let digits := Nat.toDigits 10 units
      (⟨Text.dropEndWhile (· == '0') digits, unit + digits.length - 1⟩ : Digits)
  found?.getD ⟨['0'], 0⟩

/-- How a decimal is laid out.  Powers of ten of the first digit between the two bounds are written
out; for others the power follows the digits. -/
structure Layout where
  lowest : Int
  highest : Int
deriving Repr

/-- Lays out digits with a point.  A whole number gets a nought behind the point. -/
def Digits.text (d : Digits) (layout : Layout) : List Char :=
  if d.power < layout.lowest ∨ layout.highest < d.power then
    let sign := if d.power < 0 then '-' else '+'
    let places := if d.digits.tail.isEmpty then [] else '.' :: d.digits.tail
    d.digits.take 1 ++ places ++ 'e' :: sign :: Nat.toDigits 10 d.power.natAbs
  else if d.power < 0 then
    '0' :: '.' :: List.replicate (d.power.natAbs - 1) '0' ++ d.digits
  else
    let whole := d.power.toNat + 1
    let places := if d.digits.length ≤ whole then ['0'] else d.digits.drop whole
    d.digits.take whole ++ List.replicate (whole - d.digits.length) '0' ++ '.' :: places

/-- The shortest text of a number. -/
def toText (x : Binary64) (layout : Layout) : List Char :=
  if x.mantissa = 0 then ['0', '.', '0'] else x.shortest.text layout

end Sokoban.Binary64
