import Sokoban.Proofs.Encoding.Box
import Sokoban.Proofs.Encoding.Tile

/-! # Covered goals

In a game no two boxes are on one cell.  The goals of the encodings do not depend on that: they say
of every assignment of cells to boxes whether all goals are covered (`goal_iff_covered`).  The box
encoding looks for different boxes on the open goals, but one box cannot be on two cells, so boxes
that share a cell take nothing away from the other goals; and a box out of reach counts for nothing,
as it does for the variables of cells.
-/

namespace Sokoban.Encoding

variable {l : Level} {s t : Valuation} {cells : List Nat}

/-- Variables of cells that hold where one of the boxes is show the boxes within reach.  A box out
of reach has no variable to hold. -/
theorem ShowsTiles.of_cells (h : ∀ cell, l.reachable.contains cell →
    t (boxName cell) = some (.bool (decide (cell ∈ cells)))) :
    ShowsTiles l t (cells.toFinset.filter (l.reachable.contains ·)) where
  reachable := by
    intro cell hcell
    exact (Finset.mem_filter.mp hcell).2
  value := by
    intro cell hcell
    rw [h cell hcell]
    simp [hcell]

/-- Covered cells are those of the boxes within reach and of the ones that never move. -/
theorem covered_iff_mem {goal : Nat} :
    l.Covered cells goal ↔
      goal ∈ cells.toFinset.filter (l.reachable.contains ·) ∪ l.fixedBoxes := by
  rw [Level.Covered, Finset.mem_union, Finset.mem_filter, List.mem_toFinset, or_comm, and_comm]

/-- **Goals and covered goals.**  Let the boxes be on any cells, also several on one.  Then the goal
of the box encoding holds if and only if every goal has a box that never moves or is within reach
and has one of the boxes; and the goal of the tile encoding has the same value, where the variables
of cells hold just on the cells that boxes are on. -/
theorem goal_iff_covered (hboxes : HasPositions l s cells)
    (htiles : ∀ cell, l.reachable.contains cell →
      t (boxName cell) = some (.bool (decide (cell ∈ cells)))) :
    (box l).goal.eval s = some (.bool (decide (∀ goal ∈ l.goals, l.Covered cells goal))) ∧
      (tile l).goal.eval t = (box l).goal.eval s := by
  have hbox := hboxes.goal
  have htile := (faithful_tile l).goal (ShowsTiles.of_cells htiles)
  simp only [← covered_iff_mem] at htile
  exact ⟨hbox, htile.trans hbox.symm⟩

/-- Two boxes in reach of the player, and one behind a wall.  There are goals under the latter and
beside the others. -/
def alcove : Level where
  board := ⟨1, 6, #[.floor, .box, .box, .floor, .wall, .box]⟩
  player := 0
  goals := [3, 5]
  reachable := Board.region ⟨1, 6, #[.floor, .box, .box, .floor, .wall, .box]⟩ 0
  tiles_size := rfl
  player_floor := rfl
  goals_ascending := by decide
  reachable_eq := rfl

/-- Both boxes are on the goal beside them, which no game comes to. -/
theorem goal_iff_covered_alcove :
    ∃ s t : Valuation, HasPositions alcove s [3, 3] ∧
      (∀ cell, alcove.reachable.contains cell →
        t (boxName cell) = some (.bool (decide (cell ∈ [3, 3])))) ∧
      (box alcove).goal.eval s = some (.bool true) ∧
      (tile alcove).goal.eval t = (box alcove).goal.eval s := by
  have hboxes : HasPositions alcove (fun _ => some (.num 3)) [3, 3] := by
    refine ⟨by decide +kernel, fun index cell hcell => ?_⟩
    obtain rfl : cell = 3 := by simpa using List.mem_of_getElem? hcell
    rfl
  obtain ⟨t, ht⟩ : ∃ t : Valuation, ∀ cell, t (boxName cell) = some (.bool (decide (cell = 3))) :=
    ⟨fun name => some (.bool (decide (name = boxName 3))), fun cell => by simp only [boxName_inj]⟩
  have htiles : ∀ cell, alcove.reachable.contains cell →
      t (boxName cell) = some (.bool (decide (cell ∈ [3, 3]))) := by
    intro cell _
    simpa using ht cell
  have hcovered : decide (∀ goal ∈ alcove.goals, alcove.Covered [3, 3] goal) = true := by
    decide +kernel
  have hgoals := goal_iff_covered hboxes htiles
  rw [hcovered] at hgoals
  exact ⟨_, t, hboxes, htiles, hgoals⟩

end Sokoban.Encoding
