import Sokoban.Proofs.Checked.Board
import Sokoban.Proofs.Steps

/-! # Checked steps

The table of steps divides cells by the number of columns, and it puts the steps of a cell in a row
with room for four, one a direction.  Nothing here asks whether the cells ahead are on the board,
since a cell that is not has no place in the set of reachable cells.

That a row has room is a fact about the table as a whole (`length_le_of_mem_stepTable`): the steps
of a cell are taken from queues, one for each direction, and at most one step is taken from each.
-/

namespace Sokoban.Checked

variable {α : Type} {room : Nat} {items : List α}

/-- Items that there is room for. -/
def fitting (room : Nat) (items : List α) : Except Hazard (List α) :=
  if items.length ≤ room then .ok items else .error (.overfull room)

/-- Items that there is room for are left as they are. -/
theorem fitting_eq (h : items.length ≤ room) : fitting room items = .ok items :=
  if_pos h

/-- Whether `cell` and the `reach` cells ahead of it are reachable and no side of the grid is
crossed on the way. -/
def isStart (l : Level) (dir : Direction) (reach cell : Nat) : Except Hazard Bool := do
  let column ← columnOf l.board cell
  return (List.range (reach + 1)).all fun k =>
    let ahead : Int := cell + dir.offset l.columns * k
    let column : Int := column + dir.dx * k
    0 ≤ column && column < l.columns && 0 ≤ ahead && l.reachable.contains ahead.toNat

/-- The cells from which the `reach` cells ahead are all reachable, ascending. -/
def starts (l : Level) (dir : Direction) (reach : Nat) : Except Hazard (List Nat) :=
  let (lower, upper) := l.startBounds (dir.offset l.columns) reach
  (List.range' lower (upper - lower)).filterM (isStart l dir reach)

/-- Every step in one direction, ascending by the cell it starts from. -/
def steps (l : Level) (dir : Direction) : Except Hazard (List Step) := do
  let pushes ← starts l dir 2
  let moves ← starts l dir 1
  return Level.joinStarts (dir.offset l.columns) moves pushes

/-- For every reachable cell, ascending, the steps from it in the order of directions. -/
def stepTable (l : Level) : Except Hazard (List (Nat × Level.StepRow)) := do
  let queues ← Direction.all.mapM fun dir => do return (dir, ← steps l dir)
  (Level.groupSteps l.reachable.toList queues).mapM fun (cell, row) => do
    return (cell, ← fitting 4 row)

/-- What a step can turn out to be. -/
def motions (step : Step) : Except Hazard (List Motion) :=
  fitting 2 step.motions

/-- A level has columns, so the column of a cell can be computed. -/
theorem isStart_eq (l : Level) (dir : Direction) (reach cell : Nat) :
    isStart l dir reach cell = .ok (l.isStart dir reach cell) := by
  rw [isStart, columnOf_eq Level.columns_pos]
  rfl

/-- So can those of all cells that are tried. -/
theorem starts_eq (l : Level) (dir : Direction) (reach : Nat) :
    starts l dir reach = .ok (l.starts dir reach) :=
  filterM_eq_ok_filter fun cell _ => isStart_eq l dir reach cell

/-- The steps in a direction are joined from two such lists. -/
theorem steps_eq (l : Level) (dir : Direction) : steps l dir = .ok (l.steps dir) := by
  rw [steps, starts_eq, starts_eq]
  rfl

/-- The steps from a cell have different directions, so there are at most four of them. -/
theorem length_le_of_mem_stepTable {l : Level} {entry : Nat × Level.StepRow}
    (h : entry ∈ l.stepTable) : entry.2.length ≤ 4 := by
  rw [Level.stepTable_eq] at h
  obtain ⟨cell, -, rfl⟩ := List.mem_map.mp h
  have hlength := (l.sublist_stepsFrom cell).length_le
  rw [List.length_map] at hlength
  exact hlength

/-- **The table of steps** is made without dividing by nought, and its rows have room for the steps
of their cells. -/
theorem stepTable_eq (l : Level) : stepTable l = .ok l.stepTable := by
  have hqueues : Direction.all.mapM (fun dir => do return (dir, ← steps l dir)) =
      (.ok (Direction.all.map fun dir => (dir, l.steps dir)) : Except Hazard _) := by
    refine mapM_eq_ok_map fun dir _ => ?_
    rw [steps_eq]
    rfl
  refine bind_eq_ok_iff.mpr ⟨_, hqueues, ?_⟩
  refine (mapM_eq_ok_map fun (cell, row) hentry => ?_).trans (congrArg Except.ok (List.map_id _))
  have hroom : row.length ≤ 4 := length_le_of_mem_stepTable hentry
  exact bind_eq_ok_iff.mpr ⟨row, fitting_eq hroom, rfl⟩

end Sokoban.Checked
