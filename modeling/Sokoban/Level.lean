import Sokoban.Ascending
import Sokoban.Board

/-! # Levels

A level is a board with one player, who stands on floor, and a set of goal cells.  The region that
the player can come to is worked out once, when the level is made.

What is checked at this moment is kept in the level as a proof: the tiles fill the board, the
player's cell is floor, the goals ascend, and the region is the one of the player.  Whoever has a
level can rely on these facts without another check.  Goals off the board are not refused here; no
model can be made of a level that has one.
-/

namespace Sokoban

/-- Why a board, a player and goals make no level. -/
inductive LevelError where
  /-- The board has another number of tiles than its sides say. -/
  | sizeMismatch (tiles rows columns : Nat)
  /-- The player's cell is off the board or holds a box or a wall. -/
  | playerNotOnFloor (player : Nat)
deriving DecidableEq, Repr

/-- The wording of a refusal. -/
def LevelError.message : LevelError → String
  | .sizeMismatch tiles rows columns => s!"board holds {tiles} tiles, expected {rows}x{columns}"
  | .playerNotOnFloor player => s!"player at cell {player} does not stand on floor"

/-- A board with a player on floor, goals, and the cells within the player's reach. -/
structure Level where
  board : Board
  player : Nat
  /-- The goal cells, ascending.  They may lie anywhere. -/
  goals : List Nat
  /-- The cells that the player could come to if all boxes were out of the way. -/
  reachable : CellSet
  tiles_size : board.tiles.size = board.size
  player_floor : board.tiles[player]? = some .floor
  goals_ascending : goals.Pairwise (· < ·)
  reachable_eq : reachable = board.region player
deriving DecidableEq

namespace Level

/-- Makes a level, if the tiles fill the board and the player stands on floor. -/
def make (board : Board) (player : Nat) (goals : List Nat) : Except LevelError Level :=
  if tiles_size : board.tiles.size = board.size then
    if player_floor : board.tiles[player]? = some .floor then
      .ok {
        board, player, tiles_size, player_floor
        goals := Ascending.ofList goals
        reachable := board.region player
        goals_ascending := Ascending.pairwise_ofList goals
        reachable_eq := rfl }
    else
      .error (.playerNotOnFloor player)
  else
    .error (.sizeMismatch board.tiles.size board.rows board.columns)

/-- The number of rows. -/
def rows (l : Level) : Nat := l.board.rows

/-- The number of columns. -/
def columns (l : Level) : Nat := l.board.columns

/-- The number of cells. -/
def size (l : Level) : Nat := l.board.size

/-- Whether `cell` holds a box before anything has moved. -/
def hasBox (l : Level) (cell : Nat) : Bool :=
  l.board.tiles[cell]? == some .box

/-- The cells that hold a box before anything has moved, ascending. -/
def boxes (l : Level) : List Nat :=
  (List.range l.board.tiles.size).filter l.hasBox

/-- The neighbour of `cell` in direction `dir`, if it lies on the grid. -/
def neighbor? (l : Level) (cell : Nat) (dir : Direction) : Option Nat :=
  l.board.neighbor? cell dir

/-- The smallest cell within the player's reach. -/
def firstCell (l : Level) : Nat :=
  l.reachable.first?.getD l.player

/-- The largest cell within the player's reach. -/
def lastCell (l : Level) : Nat :=
  l.reachable.last?.getD l.player

end Level

end Sokoban
