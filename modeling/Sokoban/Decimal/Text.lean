import Sokoban.Decimal

/-! # Decimals as text

A decimal is written with its sign, its whole part and all its places.

It is read from an optional sign, digits with at most one point among them, and an optional power
of ten after `e` or `E`.  Underscores may stand anywhere behind the first digit.  Places that a
decimal cannot hold are rounded away, by the first of them; a whole part that it cannot hold is an
error.
-/

namespace Sokoban.Decimal

/-! ## Writing -/

/-- Digits with a point before the last `places` of them and at least one digit before the point. -/
def insertPoint (digits : List Char) (places : Nat) : List Char :=
  if places = 0 then
    digits
  else
    let padded := List.replicate (places + 1 - digits.length) '0' ++ digits
    padded.take (padded.length - places) ++ '.' :: padded.drop (padded.length - places)

/-- The text of a decimal, with all its places. -/
def toText (d : Decimal) : String :=
  let magnitude := String.ofList (insertPoint (Nat.toDigits 10 d.mantissa) d.scale)
  if d.isNegative then "-" ++ magnitude else magnitude

/-! ## Reading -/

/-- What has been read of digits with a point. -/
structure Digits where
  mantissa : Nat := 0
  scale : Nat := 0
  /-- Some digit has been read. -/
  started : Bool := false
  /-- The point has been read. -/
  pointed : Bool := false
  /-- The places that can be held have been read, and the last of them is rounded. -/
  full : Bool := false
deriving Repr

/-- Takes the first digit that cannot be held: from five on it rounds the mantissa up.  A mantissa
that thereby grows too long gives up one place. -/
def Digits.round (s : Digits) (digit : Nat) : Option Digits :=
  if digit < 5 then
    some { s with full := true }
  else if s.mantissa + 1 < twoPow 96 then
    some { s with mantissa := s.mantissa + 1, full := true }
  else if s.scale = 0 then
    none
  else
    some { s with mantissa := (s.mantissa + 5) / 10, scale := s.scale - 1, full := true }

/-- Reads one digit. -/
def Digits.digit (s : Digits) (digit : Nat) : Option Digits :=
  let mantissa := s.mantissa * 10 + digit
  if s.full then some s
  else if s.pointed then
    if s.scale < 28 ∧ mantissa < twoPow 96 then
      some { s with mantissa, scale := s.scale + 1, started := true }
    else
      { s with started := true }.round digit
  else if mantissa < twoPow 96 then
    some { s with mantissa, started := true }
  else
    none

/-- Reads one character. -/
def Digits.step (s : Digits) (c : Char) : Option Digits :=
  if '0' ≤ c ∧ c ≤ '9' then s.digit (c.toNat - '0'.toNat)
  else if c = '.' then (if s.pointed then none else some { s with pointed := true })
  else if c = '_' then (if s.started then some s else none)
  else none

/-- Splits off a sign; whether it is a minus, and the rest. -/
def splitSign : List Char → Bool × List Char
  | '-' :: rest => (true, rest)
  | '+' :: rest => (false, rest)
  | text => (false, text)

/-- Reads a number without a power of ten. -/
def readPlain? (text : List Char) : Option Decimal := do
  let (negative, body) := splitSign text
  let digits ← body.foldlM Digits.step {}
  if digits.started then ofParts? negative digits.mantissa digits.scale else none

/-- Reads a whole number below `2 ^ 32`, with an optional plus sign and nothing but digits. -/
def readExponent? (text : List Char) : Option Nat :=
  let digits := match text with
    | '+' :: rest => rest
    | _ => text
  if digits.isEmpty || !digits.all Char.isDigit then
    none
  else
    let value := Nat.ofDigitChars 10 digits 0
    if value < twoPow 32 then some value else none

/-- The number divided by `10 ^ power`, rounded half away from nought if it has too many places. -/
def scaleDown? (d : Decimal) (power : Nat) : Option Decimal :=
  if 28 < power then none
  else if d.scale + power ≤ 28 then ofParts? d.negative d.mantissa (d.scale + power)
  else ofParts? d.negative (Rounding.halfUp d.mantissa (tenPow (d.scale + power - 28))) 28

/-- The number times `10 ^ power`, if a decimal holds it. -/
def scaleUp? (d : Decimal) (power : Nat) : Option Decimal :=
  if power ≤ d.scale then ofParts? d.negative d.mantissa (d.scale - power)
  else if 28 < power then none
  else ofParts? d.negative (d.mantissa * tenPow (power - d.scale)) 0

/-- Reads a number with a power of ten. -/
def readScientific? (text : List Char) : Option Decimal :=
  let isMark (c : Char) : Bool := c == 'e' || c == 'E'
  match text.dropWhile (!isMark ·) with
  | [] => none
  | _ :: exponent => do
    let base ← readPlain? (text.takeWhile (!isMark ·))
    match exponent with
    | '-' :: power => base.scaleDown? (← readExponent? power)
    | power => base.scaleUp? (← readExponent? power)

/-- Reads a decimal. -/
def ofText? (text : List Char) : Option Decimal :=
  (readPlain? text).orElse fun _ => readScientific? text

end Sokoban.Decimal
