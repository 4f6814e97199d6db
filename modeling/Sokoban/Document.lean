import Sokoban.Level
import Sokoban.Log
import Sokoban.RunLength
import Sokoban.Text.Blank

/-! # Documents of levels

A document is a text in which boards are drawn between titles and other prose.  Its lines are read
in order.  A line whose first visible characters are two colons is a comment and is left out; any
other line either holds board rows or ends the board above it.  The blocks of rows found this way
are numbered from one, and every block that makes a level is one; the others are skipped with a
warning.  A line of board characters that cannot be decoded refuses the whole document.
-/

namespace Sokoban.Document

/-- A row of a board, decoded. -/
abbrev Row := List Char

/-- Why a block of rows makes no level. -/
inductive BlockFault where
  | multiplePlayers
  | noPlayer
  | invalidCharacter (c : Char) (x y : Nat)
  | refused (cause : LevelError)
deriving DecidableEq, Repr

/-- The wording of the reason for which a block is skipped. -/
def BlockFault.message : BlockFault → String
  | .multiplePlayers => "multiple players found"
  | .noPlayer => "no player found on board"
  | .invalidCharacter c x y => s!"invalid character '{c}' at position ({x}, {y})"
  | .refused cause => cause.message

/-- Why a document has no levels to give. -/
inductive Fault where
  /-- The line with this number, counted from one, cannot be decoded. -/
  | encoding (line : Nat) (cause : RunLength.Fault)
  /-- There is no block that makes a level. -/
  | noLevels
deriving DecidableEq, Repr

/-- The wording of a refusal. -/
def Fault.message : Fault → String
  | .encoding line cause => s!"line {line}: {cause.message}"
  | .noLevels => "no parseable levels found in input"

/-! ## Lines -/

/-- The characters that stand for floor and fill up rows. -/
def isFiller (c : Char) : Bool :=
  c == ' ' || c == '-' || c == '_'

/-- The characters that lines with board rows are written in. -/
def isBoardChar (c : Char) : Bool :=
  "#@p+P$b*B.()|".toList.contains c || isFiller c || (RunLength.digit? c).isSome

/-- The characters that a row begins and ends with, fillers apart: a wall or a box on a goal. -/
def isEdge (c : Char) : Bool :=
  c == '#' || c == '*' || c == 'B'

/-- Whether a text is a board row. -/
def isRow (text : List Char) : Bool :=
  let inner := Text.stripWhile isFiller text
  inner.head?.any isEdge && inner.getLast?.any isEdge

/-- Whether a line is left out: two colons are the first thing on it. -/
def isComment (line : List Char) : Bool :=
  "::".toList.isPrefixOf (line.dropWhile Text.isBlank)

/-- Whether a line is written in board characters and holds more than blanks. -/
def isBoardText (line : List Char) : Bool :=
  !line.all Text.isBlank && line.all isBoardChar

/-- The rows that a decoded line holds, one behind the other with a bar between them.  A bar at the
end of the line has no row after it. -/
def splitRows (decoded : List Char) : List Row :=
  let rows := decoded.splitOn '|'
  if 1 < rows.length ∧ rows.getLast? = some [] then rows.dropLast else rows

/-- The board rows of a line, or none if it is no part of a board. -/
def rowsOfLine? (line : List Char) : Except RunLength.Fault (Option (List Row)) :=
  if isBoardText line then
    (RunLength.decode line).map fun decoded =>
      let rows := splitRows decoded
      if !decoded.isEmpty && rows.all isRow then some rows else none
  else
    .ok none

/-! ## Blocks -/

/-- Blocks of rows: those that are complete, and the one that the next line may continue. -/
structure Blocks where
  complete : List (List Row) := []
  current : List Row := []
deriving Repr

/-- Completes the open block, if it has rows. -/
def Blocks.close (b : Blocks) : Blocks :=
  if b.current.isEmpty then b else ⟨b.complete ++ [b.current], []⟩

/-- Reads what one line holds: rows continue the open block, anything else completes it. -/
def Blocks.add (b : Blocks) : Option (List Row) → Blocks
  | some rows => { b with current := b.current ++ rows }
  | none => b.close

/-- Reads numbered lines, up to the first that cannot be decoded. -/
def collect : Blocks → List (List Char × Nat) → Blocks × Option Fault
  | b, [] => (b.close, none)
  | b, (line, number) :: rest =>
    match rowsOfLine? line with
    | .ok rows? => collect (b.add rows?) rest
    | .error cause => (b, some (.encoding number cause))

/-- The lines of a document that are no comments, each with its number. -/
def contentLines (text : List Char) : List (List Char × Nat) :=
  ((Text.lines text).zipIdx 1).filter fun (line, _) => !isComment line

/-! ## Levels -/

/-- The tile that a character stands for. -/
def tile (c : Char) : Tile :=
  if c == '#' then .wall
  else if c == '$' || c == 'b' || c == '*' || c == 'B' then .box
  else .floor

/-- Whether a character puts the player on its cell. -/
def isPlayer (c : Char) : Bool :=
  c == '@' || c == 'p' || c == '+' || c == 'P'

/-- Whether a character makes its cell a goal. -/
def isGoal (c : Char) : Bool :=
  c == '.' || c == '*' || c == 'B' || c == '+' || c == 'P'

/-- Whether a character may stand in a row. -/
def isMark (c : Char) : Bool :=
  isFiller c || isPlayer c || isGoal c || tile c != .floor

/-- A row without the fillers at its end. -/
def trimRow (row : Row) : Row :=
  Text.dropEndWhile isFiller row

/-- The width of a block: the length of its longest row. -/
def width (rows : List Row) : Nat :=
  (rows.map List.length).foldl max 0

/-- A row filled up with floor. -/
def padRow (width : Nat) (row : Row) : Row :=
  row ++ List.replicate (width - row.length) '-'

/-- The marks of a block in reading order, each with its column and row. -/
def marks (rows : List Row) : List (Char × Nat × Nat) :=
  rows.zipIdx.flatMap fun (row, y) => row.zipIdx.map fun (c, x) => (c, x, y)

/-- The first mark that no level can have: a second player or a character that means nothing. -/
def firstFault (seen : Bool) : List (Char × Nat × Nat) → Option BlockFault
  | [] => none
  | (c, x, y) :: rest =>
    if isPlayer c then
      if seen then some .multiplePlayers else firstFault true rest
    else if isMark c then firstFault seen rest
    else some (.invalidCharacter c x y)

/-- The cells of the marks of a kind, in reading order. -/
def cellsOf (width : Nat) (p : Char → Bool) (marks : List (Char × Nat × Nat)) : List Nat :=
  (marks.filter fun (c, _, _) => p c).map fun (_, x, y) => y * width + x

/-- The level that a block of rows draws. -/
def levelOfRows (rows : List Row) : Except BlockFault Level :=
  let trimmed := rows.map trimRow
  let width := width trimmed
  let marks := marks trimmed
  match firstFault false marks with
  | some fault => .error fault
  | none =>
    match cellsOf width isPlayer marks with
    | [] => .error .noPlayer
    | player :: _ =>
      let tiles := (trimmed.flatMap (padRow width)).map tile
      let board : Board := ⟨rows.length, width, tiles.toArray⟩
      (Level.make board player (cellsOf width isGoal marks)).mapError .refused

/-! ## Whole documents -/

/-- What reading a document gives: the levels or a refusal, and what there is to say. -/
structure Reading where
  result : Except Fault (List Level)
  log : List Log.Record

/-- The warning that the block with this number is skipped. -/
def skipped (number : Nat) (fault : BlockFault) : Log.Record :=
  ⟨.reading, .warning, s!"skipping board: invalid level {number}: {fault.message}", []⟩

/-- The levels among what the blocks make. -/
def levels (made : List (Except BlockFault Level)) : List Level :=
  made.filterMap Except.toOption

/-- The warnings for the blocks that make no level, numbered from one. -/
def warnings (made : List (Except BlockFault Level)) : List Log.Record :=
  (made.zipIdx 1).filterMap fun (result, number) =>
    match result with
    | .ok _ => none
    | .error fault => some (skipped number fault)

/-- Reads a document. -/
def read (text : List Char) : Reading :=
  let (blocks, fault?) := collect {} (contentLines text)
  let made := blocks.complete.map levelOfRows
  match fault? with
  | some fault => ⟨.error fault, warnings made⟩
  | none =>
    match levels made with
    | [] => ⟨.error .noLevels, warnings made⟩
    | levels => ⟨.ok levels, warnings made ++ [⟨.reading, .debug, "parsed levels",
        [("count", levels.length), ("boards", made.length)]⟩]⟩

/-- The levels of a document. -/
def parse (text : List Char) : Except Fault (List Level) :=
  (read text).result

end Sokoban.Document
