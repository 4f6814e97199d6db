import Mathlib.Data.Bool.AllAny
import Sokoban.Generation
import Sokoban.Proofs.Steps
import Sokoban.Proofs.Text

/-! # Drawings as lines

The drawing of a level has one line for each row of its board, at least one character on each, and
no blanks.  The comment of a model is the drawing without the last line feed.

Both facts are needed where a model is read again.  Its comment has to come back line by line, so no
line of it may have an ending of its own; and the comment ends where the text of the model begins,
which can be told because the last line of a drawing is not empty.
-/

namespace Sokoban.Level

/-- The rows of the drawing of a level. -/
def drawnRows (l : Level) : List (List Char) :=
  (List.range l.rows).map l.drawRow

variable {l : Level} {line : List Char}

/-- A drawing is its rows, each with a line feed behind it. -/
theorem draw_eq (l : Level) : l.draw = l.drawnRows.flatMap (· ++ ['\n']) := by
  rw [drawnRows, List.flatMap_map]
  rfl

/-- **The characters of a drawing** are those that boards are written with, and a dash for floor.  A
blank would be lost at the end of a line. -/
theorem mark_mem (l : Level) (cell : Nat) : l.mark cell ∈ "#Bb.Pp-".toList := by
  unfold mark
  generalize l.goals.contains cell = goal
  split
  next => decide
  next => cases goal <;> decide
  next => split <;> cases goal <;> decide

/-- A row has no other characters either. -/
theorem mem_drawnRows (h : line ∈ l.drawnRows) : ∀ c ∈ line, c ∈ "#Bb.Pp-".toList := by
  obtain ⟨row, -, rfl⟩ := List.mem_map.mp h
  intro c hc
  obtain ⟨column, -, rfl⟩ := List.mem_map.mp hc
  exact l.mark_mem _

/-- There are rows, since there is a cell for the player. -/
theorem rows_pos : 0 < l.rows := by
  have h : l.player < l.rows * l.columns := player_lt_size
  exact Nat.pos_of_mul_pos_right (Nat.lt_of_le_of_lt (Nat.zero_le _) h)

theorem drawnRows_ne_nil (l : Level) : l.drawnRows ≠ [] := by
  apply List.ne_nil_of_length_pos
  rw [drawnRows, List.length_map, List.length_range]
  exact rows_pos

/-- No row of a drawing is empty, as a board with a cell has columns. -/
theorem ne_nil_of_mem_drawnRows (h : line ∈ l.drawnRows) : line ≠ [] := by
  obtain ⟨row, -, rfl⟩ := List.mem_map.mp h
  apply List.ne_nil_of_length_pos
  rw [drawRow, List.length_map, List.length_range]
  exact columns_pos

/-- In particular the last row is not empty, so that no line is lost when its line feed is taken
off. -/
theorem getLast?_drawnRows_ne (l : Level) : l.drawnRows.getLast? ≠ some [] :=
  fun hlast => ne_nil_of_mem_drawnRows (List.mem_of_getLast? hlast) rfl

/-- No line of a drawing has an ending of its own. -/
theorem isLine_drawnRows (l : Level) : ∀ line ∈ l.drawnRows, Text.IsLine line := by
  intro line h
  have halphabet : ∀ c ∈ "#Bb.Pp-".toList, c ≠ '\n' ∧ c ≠ '\r' :=
    List.all_iff_forall_prop.mp (by decide)
  constructor
  · intro hmem
    exact (halphabet _ (mem_drawnRows h _ hmem)).1 rfl
  · intro hlast
    exact (halphabet _ (mem_drawnRows h _ (List.mem_of_getLast? hlast))).2 rfl

/-- **The comment of a model** is the drawing without the last line feed.  Nothing else is dropped
with it, since the last row ends with a character of the board. -/
theorem toList_drawing (l : Level) :
    (Model.drawing l).toList = ['\n'].intercalate l.drawnRows := by
  have hrow := List.getLast?_eq_some_getLast l.drawnRows_ne_nil
  have hmem := List.mem_of_getLast? hrow
  have hc := List.getLast?_eq_some_getLast (ne_nil_of_mem_drawnRows hmem)
  have hfeed : ∀ c ∈ ['\n'], Text.isBlank c := List.all_eq_true.mp rfl
  have hblank : ∀ c ∈ "#Bb.Pp-".toList, Text.isBlank c = false :=
    List.all_iff_forall_prop.mp (by decide)
  rw [Model.drawing, String.toList_ofList, draw_eq, Text.flatMap_eq_intercalate l.drawnRows_ne_nil,
    Text.dropEndWhile_append_of_pos hfeed]
  exact Text.dropEndWhile_eq_self (Text.getLast?_intercalate hrow hc)
    (hblank _ (mem_drawnRows hmem _ (List.mem_of_getLast? hc)))

end Sokoban.Level
