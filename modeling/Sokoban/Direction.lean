/-! # Directions

The four directions on a grid whose cells are numbered row by row from the top left.

Going in a direction changes the column, the row and with them the number of the cell by a fixed
amount.  Rows are counted downwards, so going up takes away from the number.  The order of
`Direction.all` is the order of commands, branches and weights everywhere.
-/

namespace Sokoban

/-- One of the four directions in which the player can head. -/
inductive Direction where
  | up
  | down
  | left
  | right
deriving DecidableEq, Repr

namespace Direction

/-- Every direction, in the order in which the commands of a model list them. -/
def all : List Direction := [up, down, left, right]

/-- The change of column. -/
def dx : Direction → Int
  | up => 0
  | down => 0
  | left => -1
  | right => 1

/-- The change of row; rows are counted downwards. -/
def dy : Direction → Int
  | up => -1
  | down => 1
  | left => 0
  | right => 0

/-- The difference between the numbers of a neighbour and of the cell itself. -/
def offset (dir : Direction) (columns : Nat) : Int :=
  dir.dx + dir.dy * columns

/-- The name of the direction, which is also its action label. -/
def name : Direction → String
  | up => "up"
  | down => "down"
  | left => "left"
  | right => "right"

/-- Every direction is listed. -/
theorem mem_all (dir : Direction) : dir ∈ all := by
  cases dir <;> simp [all]

end Direction

end Sokoban
