import Sokoban.Level

/-! # Drawings of levels

A level is drawn with one character a cell and one line a row, in the characters that documents of
levels are written in.

Floor is drawn as a dash and not as a blank, so that no cell is lost at the end of a line.  A
drawing does not tell a wall on a goal from a wall.
-/

namespace Sokoban.Level

/-- The character that stands for a cell.  A wall hides a goal. -/
def mark (l : Level) (cell : Nat) : Char :=
  let goal := l.goals.contains cell
  match l.board.tiles[cell]? with
  | some .wall => '#'
  | some .box => if goal then 'B' else 'b'
  | _ =>
    if cell = l.player then (if goal then 'P' else 'p')
    else if goal then '.' else '-'

/-- The characters of one row. -/
def drawRow (l : Level) (row : Nat) : List Char :=
  (List.range l.columns).map fun column => l.mark (row * l.columns + column)

/-- The drawing: every row followed by a line feed. -/
def draw (l : Level) : List Char :=
  (List.range l.rows).flatMap fun row => l.drawRow row ++ ['\n']

end Sokoban.Level
