/-! # Rounded quotients

The whole number nearest to a quotient of natural numbers.  The two functions differ in what they do
with a quotient half way between two whole numbers.  A quotient by zero is taken as zero.

The results of operations are rounded to even.  What is half way goes up where a decimal is read
that has too many places, and where a binary number is rounded to a whole one.
-/

namespace Sokoban.Rounding

/-- The whole number nearest to `num / den`; half way, the even one. -/
def halfEven (num den : Nat) : Nat :=
  let quotient := num / den
  let twice := 2 * (num % den)
  if twice < den ∨ (twice = den ∧ quotient % 2 = 0) then quotient else quotient + 1

/-- The whole number nearest to `num / den`; half way, the larger one. -/
def halfUp (num den : Nat) : Nat :=
  (2 * num + den) / (2 * den)

end Sokoban.Rounding
