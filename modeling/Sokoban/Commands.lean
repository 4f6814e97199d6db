import Sokoban.Encoding
import Sokoban.Noise
import Sokoban.Step

/-! # Commands of a level

The commands that let a level be played, in three modes.  The player may choose every direction
and succeed (`nondeterministic`), choose and slip with noise (`noisy`), or be driven by fixed
weights (`fixed`).  In the fixed mode a box may also drift: an adversary then slides one box, or
none, before the player goes on.

Each command belongs to one cell of the player.  Whether boxes stand in the way is asked in its
guard, or in the values that its branches assign.
-/

namespace Sokoban

/-- The name of the variable that says that a box may slide, and of the action that slides it. -/
def driftName : String := "drift"

/-- A change of state and the condition under which it can happen. -/
structure Effect where
  guard : Expr
  updates : List Assignment

namespace Effect

/-- The updates in a form that changes nothing where the guard does not hold. -/
def conditional (effect : Effect) : List Assignment :=
  Sokoban.conditional effect.guard effect.updates

end Effect

namespace Encoding

/-- Puts the player on a cell. -/
def goTo (cell : Nat) : Assignment :=
  ⟨positionName, .nat cell⟩

/-- What a motion does. -/
def motionEffect (e : Encoding) : Motion → Effect
  | .walk target => ⟨.not (e.occupied target), [goTo target]⟩
  | .shove target beyond =>
    ⟨.all [e.occupied target, .not (e.occupied beyond)], goTo target :: e.shove target beyond⟩

/-- What a step does, whichever motion it turns out to be. -/
def stepEffect (e : Encoding) : Step → Effect
  | .move _ target => e.motionEffect (.walk target)
  | .push _ target beyond =>
    ⟨.not (.all [e.occupied target, e.occupied beyond]), goTo target :: e.shove target beyond⟩

end Encoding

namespace Commands

/-- Holds if and only if the player is on a cell. -/
def playerAt (cell : Nat) : Expr :=
  .eq (.var positionName) (.nat cell)

/-- The one outcome of a command that leaves nothing to chance. -/
def certain (assignments : List Assignment) : List Branch :=
  [⟨none, assignments⟩]

/-- Branches whose probabilities are the shares, scaled to sum to exactly one.  Shares of nought
are left out; a single outcome is certain, and with no outcome at all the state stays. -/
def weightedBranches (shares : List (Decimal × List Assignment)) :
    Except Decimal.Fault (List Branch) :=
  match shares.filter fun (share, _) => !share.isZero with
  | [(_, assignments)] => .ok (certain assignments)
  | shares => do
    match ← exactShares (shares.map (·.1)) with
    | some scaled => return (shares.zip scaled).map fun ((_, assignments), share) =>
        ⟨some (.real share), assignments⟩
    | none => return certain []

/-! ## The player chooses -/

/-- One command for every step: the direction succeeds. -/
def nondeterministic (l : Level) (e : Encoding) : List Command :=
  l.stepTable.flatMap fun (cell, row) => row.map fun (dir, step) =>
    let effect := e.stepEffect step
    ⟨some dir.name, .all [playerAt cell, effect.guard], certain effect.updates⟩

/-! ## The player chooses and may slip -/

/-- The branches of a direction: the intended effect first, then each slip that gets a part of the
failure probability. -/
def noisyBranches (noise : Noise) (effects : List (Direction × Effect)) (dir : Direction)
    (effect : Effect) : Except Decimal.Fault (List Branch) := do
  let others := (effects.map (·.1)).filter (· ≠ dir)
  let (intended?, parts) ← noise.distribute others
  let slips := parts.filterMap fun (other, probability) =>
    (effects.find? (·.1 == other)).map fun (_, slip) =>
      (⟨some probability, slip.conditional⟩ : Branch)
  return ⟨intended?, effect.updates⟩ :: slips

/-- One command for every step: the direction succeeds or another one is tried instead. -/
def noisy (l : Level) (e : Encoding) (noise : Noise) : Except Decimal.Fault (List Command) := do
  let rows ← l.stepTable.mapM fun (cell, row) => do
    let effects := row.map fun (dir, step) => (dir, e.stepEffect step)
    effects.mapM fun (dir, effect) => do
      let branches ← noisyBranches noise effects dir effect
      return ⟨some dir.name, .all [playerAt cell, effect.guard], branches⟩
  return rows.flatten

/-! ## Weights choose -/

/-- The weight of a direction in equal parts for the motions that its step can turn out to be. -/
def motionShares (e : Encoding) (map : ProbabilityMap) (dir : Direction) (step : Step) :
    Except Decimal.Fault (List (Decimal × List Assignment)) := do
  let share ← (map.toward dir).divNat step.motions.length
  return step.motions.map fun motion => (share, (e.motionEffect motion).conditional)

/-- The command of a cell in which weights choose.  Drift, where it has a weight, hands the next
turn to the adversary and bars this command until the adversary has had it. -/
def fixedCommand (e : Encoding) (map : ProbabilityMap) (cell : Nat) (row : Level.StepRow) :
    Except Decimal.Fault Command := do
  let shares ← row.mapM fun (dir, step) => motionShares e map dir step
  if map.drift.isZero then
    return ⟨none, playerAt cell, ← weightedBranches shares.flatten⟩
  else
    let drift := (map.drift, [⟨driftName, .bool true⟩])
    return ⟨none, .all [playerAt cell, .not (.var driftName)],
      ← weightedBranches (shares.flatten ++ [drift])⟩

/-- One command for every way to slide a box from a reachable cell to a reachable neighbour that
holds neither a box nor the player. -/
def slideCommands (l : Level) (e : Encoding) (source : Nat) (dir : Direction) : List Command :=
  match (l.neighbor? source dir).filter l.reachable.contains with
  | none => []
  | some target => (e.slides source target).map fun (pick, updates) =>
    ⟨some driftName,
      .all [.var driftName, pick, .not (e.occupied target), .ne (.var positionName) (.nat target)],
      certain (updates ++ [⟨driftName, .bool false⟩])⟩

/-- The turn of the adversary: some box slides, or none does. -/
def driftCommands (l : Level) (e : Encoding) : List Command :=
  (l.reachable.toList.flatMap fun source => Direction.all.flatMap (slideCommands l e source)) ++
    [⟨some driftName, .var driftName, certain [⟨driftName, .bool false⟩]⟩]

/-- One command for every cell, and the turn of the adversary where drift has a weight. -/
def fixed (l : Level) (e : Encoding) (map : ProbabilityMap) :
    Except Decimal.Fault (List Command) := do
  let commands ← l.stepTable.mapM fun (cell, row) => fixedCommand e map cell row
  return if map.drift.isZero then commands else commands ++ driftCommands l e

end Commands

end Sokoban
