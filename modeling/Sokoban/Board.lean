import Sokoban.CellSet
import Sokoban.Direction

/-! # Boards

A board is a rectangle of tiles, numbered row by row.  Cells know their neighbours, and the region
of a cell is everything that can be walked to through cells that are no walls.  Boxes do not bound a
region, since they can be pushed out of the way.

The region is found by a flood: cells that have been seen and not dealt with are pending, and the
last of them is dealt with next.  Every round sees to one cell, and no cell is pending twice, so the
number of cells is fuel enough.
-/

namespace Sokoban

/-- What stands on a cell before anything has moved. -/
inductive Tile where
  | floor
  | box
  | wall
deriving DecidableEq, Repr

/-- A rectangle of tiles, row by row. -/
structure Board where
  rows : Nat
  columns : Nat
  tiles : Array Tile
deriving DecidableEq, Repr

namespace Board

/-- The number of cells. -/
def size (b : Board) : Nat :=
  b.rows * b.columns

/-- The neighbour of `cell` in direction `dir`, if it lies on the grid.  The cell itself may lie
below the board. -/
def neighbor? (b : Board) (cell : Nat) (dir : Direction) : Option Nat :=
  let x : Int := (cell % b.columns : Nat) + dir.dx
  let y : Int := (cell / b.columns : Nat) + dir.dy
  if 0 ≤ x ∧ x < b.columns ∧ 0 ≤ y ∧ y < b.rows then
    some (y.toNat * b.columns + x.toNat)
  else
    none

/-- Whether `cell` holds a tile and no wall. -/
def isOpen (b : Board) (cell : Nat) : Bool :=
  match b.tiles[cell]? with
  | some tile => tile != .wall
  | none => false

/-- The neighbours of `cell` that are no walls. -/
def openNeighbors (b : Board) (cell : Nat) : List Nat :=
  (Direction.all.filterMap (b.neighbor? cell)).filter b.isOpen

/-- Puts a cell that has not been seen before on the pending list. -/
def discover : List Nat × CellSet → Nat → List Nat × CellSet
  | (pending, seen), cell =>
    if seen.contains cell then (pending, seen) else (cell :: pending, seen.insert cell)

/-- Takes pending cells one by one and discovers their open neighbours.  Every cell is pending at
most once, so as much fuel as there are cells is enough. -/
def flood (b : Board) : Nat → List Nat → CellSet → CellSet
  | 0, _, seen => seen
  | _, [], seen => seen
  | fuel + 1, cell :: pending, seen =>
    let (pending, seen) := (b.openNeighbors cell).foldl discover (pending, seen)
    flood b fuel pending seen

/-- The cells that can be walked to from `start`, and `start` itself. -/
def region (b : Board) (start : Nat) : CellSet :=
  b.flood b.size [start] ((CellSet.withCapacity b.size).insert start)

end Board

end Sokoban
