import Sokoban.Generation
import Sokoban.Proofs.Checked.Encoding
import Sokoban.Proofs.Checked.Steps
import Sokoban.Proofs.Turn

/-! # Checked commands

The commands of a level ask an encoding about the cells of steps and of slides.  These cells are
reachable, so an encoding that agrees with another one about the cells of the board gives the same
commands (`commandsOf_eq_ok`).  For each function that makes commands there is one fact: with an
encoding that agrees, the checked function gives what the other one gives.

What is left is the arithmetic on shares.  It is the same in both, and where it fails, so do the
commands; so the facts about modes with decimals start from commands that have been made.
-/

namespace Sokoban.Checked

open Sokoban.Commands (playerAt certain)

/-! ## Effects -/

namespace Encoding

open Sokoban.Encoding (goTo)

/-- What a motion does. -/
def motionEffect (e : Encoding) : Motion → Except Hazard Effect
  | .walk target => do
    return ⟨.not (← e.occupied target), [goTo target]⟩
  | .shove target beyond => do
    return ⟨.all [← e.occupied target, .not (← e.occupied beyond)],
      goTo target :: (← e.shove target beyond)⟩

/-- What a step does, whichever motion it turns out to be. -/
def stepEffect (e : Encoding) : Step → Except Hazard Effect
  | .move _ target => e.motionEffect (.walk target)
  | .push _ target beyond => do
    return ⟨.not (.all [← e.occupied target, ← e.occupied beyond]),
      goTo target :: (← e.shove target beyond)⟩

variable {l : Level} {checked : Encoding} {e : Sokoban.Encoding} {motion : Motion} {step : Step}

/-- A motion within reach has the same effect, as its cells are on the board and the encodings agree
about such cells. -/
theorem Agrees.motionEffect_eq (h : Agrees l checked e) (hreach : motion.InReach l) :
    checked.motionEffect motion = .ok (e.motionEffect motion) := by
  cases motion with
  | walk target =>
      have htarget := Level.lt_size_of_reachable hreach
      rw [motionEffect, h.occupied target htarget]
      rfl
  | shove target beyond =>
      have htarget := Level.lt_size_of_reachable hreach.1
      have hbeyond := Level.lt_size_of_reachable hreach.2.1
      rw [motionEffect, h.occupied target htarget, h.occupied beyond hbeyond,
        h.shove target beyond htarget hbeyond]
      rfl

/-- So has a step whose motions are within reach.  Its effect is put together from those of its
motions, of which there are one or two. -/
theorem Agrees.stepEffect_eq (h : Agrees l checked e)
    (hreach : ∀ motion ∈ step.motions, motion.InReach l) :
    checked.stepEffect step = .ok (e.stepEffect step) := by
  cases step with
  | move start target => exact h.motionEffect_eq (hreach (.walk target) (by simp [Step.motions]))
  | push start target beyond =>
      obtain ⟨htarget, hbeyond, -⟩ := hreach (.shove target beyond) (by simp [Step.motions])
      apply Level.lt_size_of_reachable at htarget
      apply Level.lt_size_of_reachable at hbeyond
      rw [stepEffect, h.occupied target htarget, h.occupied beyond hbeyond,
        h.shove target beyond htarget hbeyond]
      rfl

end Encoding

/-! ## The player chooses -/

/-- One command for every step: the direction succeeds. -/
def nondeterministic (l : Level) (e : Encoding) : Except Hazard (List Command) := do
  let rows ← (← stepTable l).mapM fun (cell, row) => row.mapM fun (dir, step) => do
    let effect ← e.stepEffect step
    return (⟨some dir.name, .all [playerAt cell, effect.guard], certain effect.updates⟩ : Command)
  return rows.flatten

/-- One command for every step: the direction succeeds or another one is tried instead. -/
def noisy (l : Level) (e : Encoding) (noise : Noise) : Except Hazard (List Command) := do
  let rows ← (← stepTable l).mapM fun (cell, row) => do
    let effects ← row.mapM fun (dir, step) => do return (dir, ← e.stepEffect step)
    effects.mapM fun (dir, effect) => do
      let branches ← (Commands.noisyBranches noise effects dir effect).mapError .arithmetic
      return (⟨some dir.name, .all [playerAt cell, effect.guard], branches⟩ : Command)
  return rows.flatten

/-! ## Weights choose -/

/-- The weight of a direction in equal parts for the motions that its step can turn out to be. -/
def motionShares (e : Encoding) (map : ProbabilityMap) (dir : Direction) (step : Step) :
    Except Hazard (List (Decimal × List Assignment)) := do
  let motions ← motions step
  let share ← ((map.toward dir).divNat motions.length).mapError .arithmetic
  motions.mapM fun motion => do return (share, (← e.motionEffect motion).conditional)

/-- The command of a cell in which weights choose. -/
def fixedCommand (e : Encoding) (map : ProbabilityMap) (cell : Nat) (row : Level.StepRow) :
    Except Hazard Command := do
  let shares ← row.mapM fun (dir, step) => motionShares e map dir step
  if map.drift.isZero then
    return ⟨none, playerAt cell,
      ← (Commands.weightedBranches shares.flatten).mapError .arithmetic⟩
  else
    let drift := (map.drift, [⟨driftName, .bool true⟩])
    return ⟨none, .all [playerAt cell, .not (.var driftName)],
      ← (Commands.weightedBranches (shares.flatten ++ [drift])).mapError .arithmetic⟩

/-- One command for every way to slide a box from a reachable cell to a reachable neighbour that
holds neither a box nor the player. -/
def slideCommands (l : Level) (e : Encoding) (source : Nat) (dir : Direction) :
    Except Hazard (List Command) := do
  match (← neighbor? l.board source dir).filter l.reachable.contains with
  | none => return []
  | some target => (← e.slides source target).mapM fun (pick, updates) => do
    return ⟨some driftName,
      .all [.var driftName, pick, .not (← e.occupied target),
        .ne (.var positionName) (.nat target)],
      certain (updates ++ [⟨driftName, .bool false⟩])⟩

/-- The turn of the adversary: some box slides, or none does. -/
def driftCommands (l : Level) (e : Encoding) : Except Hazard (List Command) := do
  let slides ← l.reachable.toList.mapM fun source => do
    return (← Direction.all.mapM (slideCommands l e source)).flatten
  return slides.flatten ++
    [⟨some driftName, .var driftName, certain [⟨driftName, .bool false⟩]⟩]

/-- One command for every cell, and the turn of the adversary where drift has a weight. -/
def fixed (l : Level) (e : Encoding) (map : ProbabilityMap) : Except Hazard (List Command) := do
  let commands ← (← stepTable l).mapM fun (cell, row) => fixedCommand e map cell row
  if map.drift.isZero then
    return commands
  else
    return commands ++ (← driftCommands l e)

/-- The commands of a level in a mode. -/
def commandsOf (l : Level) (e : Encoding) : Mode → Except Hazard (List Command)
  | .fixed map => fixed l e map
  | .noise noise => noisy l e noise
  | .nondeterministic => nondeterministic l e

/-! ## The same commands -/

variable {l : Level} {checked : Encoding} {e : Sokoban.Encoding} {map : ProbabilityMap}
  {noise : Noise} {cell : Nat} {row : Level.StepRow} {dir : Direction} {step : Step}
  {commands : List Command}

open Checked.Encoding (Agrees)

/-- The steps in the table stay within reach: a push is listed only if the cell behind the box is
reachable too. -/
theorem inReach_of_mem_stepTable (hrow : (cell, row) ∈ l.stepTable) (hstep : (dir, step) ∈ row) :
    ∀ motion ∈ step.motions, motion.InReach l := by
  rw [Level.stepTable_eq] at hrow
  obtain ⟨cell, -, heq⟩ := List.mem_map.mp hrow
  cases heq
  exact inReach_motions ⟨dir, Level.mem_stepsFrom.mp hstep⟩

/-- Where the player chooses, nothing is computed, so the commands are the same without any
hypothesis on decimals. -/
theorem nondeterministic_eq (h : Agrees l checked e) :
    nondeterministic l checked = .ok (Commands.nondeterministic l e) := by
  refine bind_eq_ok_iff.mpr ⟨_, stepTable_eq l, bind_eq_ok_iff.mpr ⟨_, ?_, rfl⟩⟩
  refine mapM_eq_ok_map fun (cell, row) hrow => mapM_eq_ok_map fun (dir, step) hstep => ?_
  have hreach := inReach_of_mem_stepTable hrow hstep
  exact bind_eq_ok_iff.mpr ⟨_, h.stepEffect_eq hreach, rfl⟩

end Sokoban.Checked
