import Sokoban.Expr
import Sokoban.Probability

/-! # Noise

A player whose moves are noisy heads in the intended direction with the probability `mu`.  What is
left, `1 - mu`, is spread over the other directions, evenly or by weights.  The probability stays a
constant of the model, so shares are expressions.

Only directions in which a step is possible get a part.  Where the weights give nothing to any of
them, the parts are even after all; and where there is no other direction, the intended one is
certain.
-/

namespace Sokoban

/-- The name of the constant for the success probability. -/
def muName : String := "mu"

/-- How the failure probability is spread over the other directions. -/
inductive Residual where
  /-- Evenly. -/
  | uniform
  /-- By the weights of a map. -/
  | weighted (map : ProbabilityMap)

/-- A success probability, left open where it has no value, and what happens otherwise. -/
structure Noise where
  mu? : Option Decimal
  residual : Residual

namespace Noise

/-- Noise with a success probability between nought and one. -/
def make (mu? : Option Decimal) (residual : Residual) : Except ProbabilityError Noise :=
  match mu? with
  | some mu =>
    if mu.lt .zero || Decimal.one.lt mu then .error (.muOutOfRange mu.toText)
    else .ok ⟨some mu, residual⟩
  | none => .ok ⟨none, residual⟩

/-- The probability that the intended direction fails. -/
def failure : Expr :=
  .sub (.nat 1) (.var muName)

/-- The failure probability in equal parts. -/
def evenParts (others : List Direction) : List (Direction × Expr) :=
  let part := if others.length = 1 then failure else .div failure (.nat others.length)
  others.map (·, part)

/-- The part of the failure probability that a share gives. -/
def part (share : Decimal) : Expr :=
  if share.same .one then failure else .mul failure (.real share)

/-- The probability of the intended direction and of those among `others` that get a part.  Without
other directions the intended one is certain and has no probability. -/
def distribute (noise : Noise) (others : List Direction) :
    Except Decimal.Fault (Option Expr × List (Direction × Expr)) :=
  if others.isEmpty then
    .ok (none, [])
  else
    match noise.residual with
    | .uniform => .ok (some (.var muName), evenParts others)
    | .weighted map => do
      let weighted := others.filter fun dir => !(map.toward dir).isZero
      match ← exactShares (weighted.map map.toward) with
      | some shares => return (some (.var muName), (weighted.zip shares).map fun (dir, share) =>
          (dir, part share))
      | none => return (some (.var muName), evenParts others)

end Noise

end Sokoban
