import Sokoban.Model
import Sokoban.Arrangements
import Sokoban.Level

/-! # Encodings of the boxes

A model needs variables that say where the boxes are.  An encoding gives these variables and
answers, in expressions over them, whether a box stands on a cell, how a box is pushed or slides,
and whether all goals are covered.

Two encodings are given.  `Encoding.tile` has a truth value for every reachable cell;
`Encoding.box` has a position for every box that can move.  Boxes that the player cannot come to
never move and are part of the layout.
-/

namespace Sokoban

/-- The name of the variable for the player's cell. -/
def positionName : String := "position"

/-- The name of the variable for a box or for the cell of a box. -/
def boxName (n : Nat) : String := s!"box_{n}"

/-- Makes assignments that take effect where a condition holds and change nothing elsewhere. -/
def conditional (condition : Expr) (assignments : List Assignment) : List Assignment :=
  assignments.map fun a => ⟨a.target, .ite condition a.value (.var a.target)⟩

/-- A representation of the boxes in state variables. -/
structure Encoding where
  /-- The variables. -/
  vars : List Variable
  /-- Holds if and only if a box stands on the cell. -/
  occupied : Nat → Expr
  /-- Moves the box on the first cell to the second, and changes nothing if there is none. -/
  shove : Nat → Nat → List Assignment
  /-- The ways in which a box can slide from the first cell to the second: a condition that picks
  the box on the first cell, and the assignments that move it. -/
  slides : Nat → Nat → List (Expr × List Assignment)
  /-- Holds if and only if a box stands on every goal. -/
  goal : Expr

namespace Encoding

/-- Which variables stand for the boxes. -/
inductive Kind where
  | tile
  | box
deriving DecidableEq, Repr

/-- One truth value for every reachable cell. -/
def tile (l : Level) : Encoding :=
  let occupied (cell : Nat) : Expr :=
    if l.reachable.contains cell then .var (boxName cell) else .bool (l.hasBox cell)
  { vars := l.reachable.toList.map fun cell => .bool (boxName cell) (l.hasBox cell)
    occupied
    shove := fun target beyond =>
      [⟨boxName target, .bool false⟩, ⟨boxName beyond, .any [occupied target, occupied beyond]⟩]
    slides := fun source target =>
      [(occupied source, [⟨boxName source, .bool false⟩, ⟨boxName target, .bool true⟩])]
    goal := .all (l.goals.map occupied) }

/-- The boxes that can move: those on reachable cells, ascending. -/
def movable (l : Level) : List Nat :=
  l.boxes.filter l.reachable.contains

/-- The goals that are not covered for good: no box that never moves stands on them. -/
def openGoals (l : Level) : List Nat :=
  l.goals.filter fun goal => !l.hasBox goal || l.reachable.contains goal

/-- Whether the box with this number stands on `cell`. -/
def boxAt (index cell : Nat) : Expr :=
  .eq (.var (boxName index)) (.nat cell)

/-- Holds if and only if some choice of different movable boxes stands on the open goals, one on
each.  Boxes are interchangeable, so this is a disjunction over all choices; the boxes left over
may stand anywhere. -/
def boxGoal (boxes : Nat) (goals : List Nat) : Expr :=
  .any ((arrangements goals.length (List.range boxes)).map fun chosen =>
    let pairs := (chosen.zip goals).mergeSort fun a b => a.1 ≤ b.1
    .all (pairs.map fun (index, goal) => boxAt index goal))

/-- One position for every box that can move. -/
def box (l : Level) : Encoding :=
  let movable := movable l
  let indices := List.range movable.length
  let occupied (cell : Nat) : Expr :=
    if l.reachable.contains cell then .any (indices.map (boxAt · cell)) else .bool (l.hasBox cell)
  let openGoals := openGoals l
  { vars := movable.zipIdx.map fun (cell, index) =>
      .bounded (boxName index) l.firstCell l.lastCell cell
    occupied
    shove := fun target beyond => indices.map fun index =>
      ⟨boxName index, .ite (boxAt index target) (.nat beyond) (.var (boxName index))⟩
    slides := fun source target => indices.map fun index =>
      (boxAt index source, [⟨boxName index, .nat target⟩])
    goal :=
      if movable.length < openGoals.length || openGoals.any (!l.reachable.contains ·) then
        .bool false
      else
        boxGoal movable.length openGoals }

/-- The encoding of a kind. -/
def ofKind : Kind → Level → Encoding
  | .tile => tile
  | .box => box

end Encoding

end Sokoban
