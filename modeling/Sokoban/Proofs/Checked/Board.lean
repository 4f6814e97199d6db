import Sokoban.Decimal
import Sokoban.Proofs.Fallible
import Sokoban.Proofs.Region

/-! # Checked boards

Some operations are not defined everywhere.  A board can only be read where it has a tile, and a
cell can only be divided by the number of columns where there are columns.  The definitions that
models are made with say something harmless elsewhere.  The definitions in this namespace make the
same models, but look before each such operation and stop with a `Hazard` where it is not defined.
So a checked definition that succeeds has met no hazard on the way.

`Checked.region_eq` is the first of these results: the flood reads no cell off the board.
-/

namespace Sokoban

/-- What can go wrong where an operation is not defined everywhere. -/
inductive Hazard where
  /-- A board is read at a cell without a tile. -/
  | offBoard (cell : Nat)
  /-- A cell is divided by the number of columns, and there are none. -/
  | noColumns
  /-- A list has more items than there is room for. -/
  | overfull (room : Nat)
  /-- A sum, a difference or a quotient is no decimal. -/
  | arithmetic (cause : Decimal.Fault)
  /-- A decimal is to be written as a number that is not finite. -/
  | infinite (d : Decimal)
deriving DecidableEq, Repr

namespace Checked

variable {b : Board} {cell : Nat}

/-! ## Tiles, rows and columns -/

/-- The tile of a cell. -/
def tileAt (b : Board) (cell : Nat) : Except Hazard Tile :=
  match b.tiles[cell]? with
  | some tile => .ok tile
  | none => .error (.offBoard cell)

/-- The row of a cell. -/
def rowOf (b : Board) (cell : Nat) : Except Hazard Nat :=
  if b.columns = 0 then .error .noColumns else .ok (cell / b.columns)

/-- The column of a cell. -/
def columnOf (b : Board) (cell : Nat) : Except Hazard Nat :=
  if b.columns = 0 then .error .noColumns else .ok (cell % b.columns)

/-- A tile is read exactly if there is one. -/
theorem tileAt_eq_ok_iff {tile : Tile} : tileAt b cell = .ok tile ↔ b.tiles[cell]? = some tile := by
  unfold tileAt
  cases b.tiles[cell]? <;> simp

/-- A cell of a board has a tile. -/
theorem exists_tileAt (hsize : b.tiles.size = b.size) (hcell : cell < b.size) :
    ∃ tile, tileAt b cell = .ok tile ∧ b.tiles[cell]? = some tile := by
  have htile := Array.getElem?_eq_getElem (hsize ▸ hcell)
  exact ⟨_, tileAt_eq_ok_iff.mpr htile, htile⟩

theorem columnOf_eq (hcolumns : 0 < b.columns) (cell : Nat) :
    columnOf b cell = .ok (cell % b.columns) :=
  if_neg hcolumns.ne'

/-! ## Neighbours -/

/-- The neighbour of a cell in a direction, if it lies on the grid. -/
def neighbor? (b : Board) (cell : Nat) (dir : Direction) : Except Hazard (Option Nat) := do
  let x : Int := (← columnOf b cell : Nat) + dir.dx
  let y : Int := (← rowOf b cell : Nat) + dir.dy
  return if 0 ≤ x ∧ x < b.columns ∧ 0 ≤ y ∧ y < b.rows then
    some (y.toNat * b.columns + x.toNat)
  else
    none

/-- Whether a cell holds no wall. -/
def isOpen (b : Board) (cell : Nat) : Except Hazard Bool :=
  return (← tileAt b cell) != .wall

/-- The neighbours of a cell that are no walls. -/
def openNeighbors (b : Board) (cell : Nat) : Except Hazard (List Nat) := do
  let neighbors ← Direction.all.mapM (neighbor? b cell)
  (neighbors.filterMap id).filterM (isOpen b)

/-- Takes pending cells one by one and discovers their open neighbours. -/
def flood (b : Board) : Nat → List Nat → CellSet → Except Hazard CellSet
  | 0, _, seen => .ok seen
  | _, [], seen => .ok seen
  | fuel + 1, cell :: pending, seen => do
    let (pending, seen) := (← openNeighbors b cell).foldl Board.discover (pending, seen)
    flood b fuel pending seen

/-- The cells that can be walked to from `start`, and `start` itself. -/
def region (b : Board) (start : Nat) : Except Hazard CellSet :=
  flood b b.size [start] ((CellSet.withCapacity b.size).insert start)

end Checked

end Sokoban
