import Sokoban.Level

/-! # Steps and motions

What heading in a direction can do from a cell is fixed by the layout alone: with two reachable
cells ahead the player may push a box, with one the player may only walk.  Whether a box stands in
the way is settled while the game runs.

Steps are found by arithmetic on cell numbers.  `starts` runs over the numbers between two bounds
and keeps the cells whose cells ahead are reachable and lie in the grid; a run along a row must not
leave it.
-/

namespace Sokoban

/-- What the player can do when heading in one direction from one cell. -/
inductive Step where
  /-- Only the neighbour is reachable: walk there if it is free. -/
  | move (start target : Nat)
  /-- The neighbour and the cell behind it are reachable: go to the neighbour, pushing a box that
  stands there one cell further. -/
  | push (start target beyond : Nat)
deriving DecidableEq, Repr

/-- What a step turns out to be while the game runs. -/
inductive Motion where
  /-- Walk to a free cell. -/
  | walk (target : Nat)
  /-- Go to an occupied cell, moving its box to the free cell behind it. -/
  | shove (target beyond : Nat)
deriving DecidableEq, Repr

namespace Step

/-- The cell that a step starts from. -/
def start : Step → Nat
  | move start _ => start
  | push start _ _ => start

/-- What a step can turn out to be. -/
def motions : Step → List Motion
  | move _ target => [.walk target]
  | push _ target beyond => [.walk target, .shove target beyond]

end Step

namespace Level

/-- Bounds, the upper one excluded, for the cells from which `reach` cells at the given offset lie
within the board, cut down to the span of the reachable cells.  A negative offset raises the lower
bound, any other one may lower the upper bound. -/
def startBounds (l : Level) (offset : Int) (reach : Nat) : Nat × Nat :=
  let span := offset.natAbs * reach
  if offset < 0 then
    (max span l.firstCell, l.lastCell + 1)
  else
    (l.firstCell, min (l.size - span) (l.lastCell + 1))

/-- Whether `cell` and the `reach` cells ahead of it are reachable and no side of the grid is
crossed on the way. -/
def isStart (l : Level) (dir : Direction) (reach cell : Nat) : Bool :=
  (List.range (reach + 1)).all fun k =>
    let ahead : Int := cell + dir.offset l.columns * k
    let column : Int := (cell % l.columns : Nat) + dir.dx * k
    0 ≤ column && column < l.columns && 0 ≤ ahead && l.reachable.contains ahead.toNat

/-- The cells from which the `reach` cells ahead are all reachable, ascending. -/
def starts (l : Level) (dir : Direction) (reach : Nat) : List Nat :=
  let (lower, upper) := l.startBounds (dir.offset l.columns) reach
  (List.range' lower (upper - lower)).filter (l.isStart dir reach)

/-- Pairs the cells with one cell ahead with those that have two.  Both lists ascend and the second
is part of the first, so it is enough to look at its head. -/
def joinStarts (offset : Int) : List Nat → List Nat → List Step
  | [], _ => []
  | start :: moves, pushes =>
    let target := (start + offset).toNat
    match pushes with
    | [] => .move start target :: joinStarts offset moves []
    | push :: rest =>
      if push = start then
        .push start target (target + offset).toNat :: joinStarts offset moves rest
      else
        .move start target :: joinStarts offset moves (push :: rest)

/-- Every step in one direction, ascending by the cell it starts from. -/
def steps (l : Level) (dir : Direction) : List Step :=
  joinStarts (dir.offset l.columns) (l.starts dir 1) (l.starts dir 2)

/-- Takes the step that starts from `cell` off a queue, if it is the first. -/
def takeStep (cell : Nat) : List Step → Option Step × List Step
  | [] => (none, [])
  | step :: rest => if step.start = cell then (some step, rest) else (none, step :: rest)

/-- The steps from one cell, with their directions. -/
abbrev StepRow := List (Direction × Step)

/-- Groups queues of steps, one a direction, by the cells they start from. -/
def groupSteps : List Nat → List (Direction × List Step) → List (Nat × StepRow)
  | [], _ => []
  | cell :: cells, queues =>
    let taken := queues.map fun (dir, queue) => (dir, takeStep cell queue)
    let row := taken.filterMap fun (dir, step?, _) => step?.map (dir, ·)
    (cell, row) :: groupSteps cells (taken.map fun (dir, _, rest) => (dir, rest))

/-- For every reachable cell, ascending, the steps from it in the order of directions. -/
def stepTable (l : Level) : List (Nat × StepRow) :=
  groupSteps l.reachable.toList (Direction.all.map fun dir => (dir, l.steps dir))

end Level

end Sokoban
