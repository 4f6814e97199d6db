import Sokoban.Commands
import Sokoban.Level.Drawing
import Sokoban.Log

/-! # From levels to models

A configuration says who chooses the direction of each step, how the boxes are represented, what is
asked for and in which format the model is written.

The parts of a model depend on different parts of the configuration: its actions, constants and
flags on the mode, its variables and goal on the encoding, its commands on both.  So each part is a
function of what it depends on, and a model is put together from them.
-/

namespace Sokoban

/-- Who chooses between directions. -/
inductive Mode where
  /-- Chance, by the weights of a map. -/
  | fixed (map : ProbabilityMap)
  /-- The player, who may slip. -/
  | noise (noise : Noise)
  /-- The player, who always succeeds. -/
  | nondeterministic

/-- The formats that models are written in. -/
inductive Format where
  | jani
  | prism
deriving DecidableEq, Repr

/-- What models of levels are made like. -/
structure Configuration where
  format : Format := .jani
  encoding : Encoding.Kind := .tile
  mode : Mode := .fixed .uniform
  /-- The objective, if it is not the usual one of the mode. -/
  objective? : Option Objective := none
  rewards : Bool := false

/-- The objective.  Where chance chooses, the least probability of reaching the goal is asked for;
where the player does, the greatest. -/
def Configuration.objective (c : Configuration) : Objective :=
  c.objective?.getD <|
    match c.mode with
    | .fixed _ => .min
    | .noise _ | .nondeterministic => .max

/-- Why a level has no model. -/
inductive ModelError where
  /-- A goal does not lie on the board. -/
  | goalOffBoard (cell : Nat)
  /-- A probability cannot be computed. -/
  | arithmetic (cause : Decimal.Fault)
deriving DecidableEq, Repr

/-- The wording of an error. -/
def ModelError.message : ModelError → String
  | .goalOffBoard cell => s!"goal at cell {cell} does not lie on the board"
  | .arithmetic cause => cause.message

namespace Model

/-- The comment at the head of a model: the drawing of its level. -/
def drawing (l : Level) : String :=
  .ofList (Text.dropEndWhile Text.isBlank l.draw)

/-- The commands of a level in a mode. -/
def commandsOf (l : Level) (e : Encoding) : Mode → Except Decimal.Fault (List Command)
  | .fixed map => Commands.fixed l e map
  | .noise noise => Commands.noisy l e noise
  | .nondeterministic => .ok (Commands.nondeterministic l e)

/-- The actions of a mode: the directions where the player chooses, drift where boxes drift. -/
def actionsOf : Mode → List String
  | .fixed map => if map.drift.isZero then [] else [driftName]
  | .noise _ | .nondeterministic => Direction.all.map Direction.name

/-- The constants of a mode. -/
def constantsOf : Mode → List Constant
  | .noise noise => [⟨muName, noise.mu?⟩]
  | .fixed _ | .nondeterministic => []

/-- The variables of a mode besides the player's cell and the boxes. -/
def flagsOf : Mode → List Variable
  | .fixed map => if map.drift.isZero then [] else [.bool driftName false]
  | .noise _ | .nondeterministic => []

/-- The variable for the player's cell. -/
def positionOf (l : Level) : Variable :=
  .bounded positionName l.firstCell l.lastCell l.player

/-- The model of a level in an encoding. -/
def ofEncoding (l : Level) (e : Encoding) (c : Configuration) : Except Decimal.Fault Model := do
  return {
    comment? := some (drawing l)
    constants := constantsOf c.mode
    actions := actionsOf c.mode
    vars := positionOf l :: e.vars ++ flagsOf c.mode
    commands := ← commandsOf l e c.mode
    goal := e.goal
    objective := c.objective
    rewards := c.rewards }

/-- The model of a level whose goals lie on the board. -/
def ofLevel (l : Level) (c : Configuration) : Except ModelError Model :=
  match l.goals.find? (l.size ≤ ·) with
  | some goal => .error (.goalOffBoard goal)
  | none => (ofEncoding l (.ofKind c.encoding l) c).mapError .arithmetic

/-- What there is to say about a model that has been made. -/
def record (m : Model) : Log.Record :=
  ⟨.generation, .debug, "built model",
    [("variables", m.vars.length), ("commands", m.commands.length)]⟩

end Model

end Sokoban
