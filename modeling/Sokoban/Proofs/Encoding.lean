import Mathlib.Data.Finset.Basic
import Mathlib.Data.Finset.Dedup
import Sokoban.Commands
import Sokoban.Proofs.Run

/-! # What the encodings show

A state shows a set of boxes: in the tile encoding those on the cells whose variables hold, in the
box encoding those at the positions that the variables give, which have to be different
(`Encoding.Kind.Shows`).  Boxes out of reach have no variables; they are `Level.fixedBoxes`.  So a
state of either encoding stands for the same thing, a set of cells, although the box encoding has
many states for one set.

`Encoding.Faithful` says what an encoding has to do to be used in commands.  Its expressions tell
what the state shows, its assignments change what the state shows in the way that is asked for, and
they assign nothing but variables of boxes.  Both encodings are faithful (`faithful_tile`,
`faithful_box`), so everything about commands can be proved once, for any faithful encoding.  A
third encoding would need this one proof and nothing else.
-/

namespace Sokoban

/-! ## Names -/

/-- Different numbers make different names of boxes. -/
theorem boxName_inj {m n : Nat} : boxName m = boxName n ↔ m = n := by
  constructor
  · intro h
    have hdigits : Nat.toDigits 10 m = Nat.toDigits 10 n := by
      simpa [boxName] using congrArg String.toList h
    have hnumber := congrArg (Nat.ofDigitChars 10 · 0) hdigits
    simpa only [Nat.ofDigitChars_toDigits (show 1 < 10 by decide) (Nat.le_refl 10)] using hnumber
  · intro h
    rw [h]

/-- The name of a box is not that of the position. -/
theorem boxName_ne_positionName (n : Nat) : boxName n ≠ positionName := by
  intro h
  simpa [boxName, positionName, toString] using congrArg (·.toList.head?) h

theorem boxName_ne_driftName (n : Nat) : boxName n ≠ driftName := by
  intro h
  simpa [boxName, driftName, toString] using congrArg (·.toList.head?) h

/-- The names of the position and of drift differ, so all variables of a model do. -/
theorem positionName_ne_driftName : positionName ≠ driftName := by
  decide

/-! ## Boxes -/

/-- The boxes out of reach, which never move. -/
def Level.fixedBoxes (l : Level) : Finset Nat :=
  (l.boxes.filter (!l.reachable.contains ·)).toFinset

/-- The boxes of a level are the cells with a box on them. -/
theorem Level.mem_boxes {l : Level} {cell : Nat} : cell ∈ l.boxes ↔ l.hasBox cell := by
  rw [boxes, List.mem_filter, List.mem_range, and_iff_right_iff_imp]
  intro h
  by_contra hlt
  simp [hasBox, Array.getElem?_eq_none (Nat.le_of_not_lt hlt)] at h

/-- A box that never moves is one that the player does not come near. -/
theorem Level.mem_fixedBoxes {l : Level} {cell : Nat} :
    cell ∈ l.fixedBoxes ↔ l.hasBox cell ∧ l.reachable.contains cell = false := by
  simp [fixedBoxes, mem_boxes]

/-- No box that never moves is within reach. -/
theorem Level.not_mem_fixedBoxes {l : Level} {cell : Nat} (hcell : l.reachable.contains cell) :
    cell ∉ l.fixedBoxes := by
  simp [mem_fixedBoxes, hcell]

/-- A goal is covered while boxes are on these cells: by a box that never moves, or by one of them
if it is within reach. -/
def Level.Covered (l : Level) (cells : List Nat) (goal : Nat) : Prop :=
  goal ∈ l.fixedBoxes ∨ l.reachable.contains goal ∧ goal ∈ cells

instance (l : Level) (cells : List Nat) (goal : Nat) : Decidable (l.Covered cells goal) :=
  inferInstanceAs (Decidable (_ ∨ _))

/-- The boxes after pushing what stands on one cell to another one.  Without a box there nothing
changes. -/
def pushed (target beyond : Nat) (boxes : Finset Nat) : Finset Nat :=
  if target ∈ boxes then insert beyond (boxes.erase target) else boxes

namespace Encoding

/-- A box can be moved if it is within reach. -/
theorem mem_movable {l : Level} {cell : Nat} :
    cell ∈ movable l ↔ l.hasBox cell ∧ l.reachable.contains cell := by
  rw [movable, List.mem_filter, Level.mem_boxes]

/-- No box comes up twice among those that can be moved. -/
theorem nodup_movable (l : Level) : (movable l).Nodup :=
  (List.nodup_range.filter _).filter _

/-- On reachable cells only movable boxes count. -/
theorem mem_union_fixedBoxes {l : Level} {boxes : Finset Nat} {cell : Nat}
    (hcell : l.reachable.contains cell) :
    cell ∈ boxes ∪ l.fixedBoxes ↔ cell ∈ boxes := by
  rw [Finset.mem_union, or_iff_left (Level.not_mem_fixedBoxes hcell)]

/-- A state of the tile encoding shows a box on each cell whose variable holds. -/
structure ShowsTiles (l : Level) (s : Valuation) (boxes : Finset Nat) : Prop where
  reachable : ∀ cell ∈ boxes, l.reachable.contains cell
  value : ∀ cell, l.reachable.contains cell →
    s (boxName cell) = some (.bool (decide (cell ∈ boxes)))

/-- A state of the box encoding shows the boxes at the positions that the variables give.  There is
one position for every movable box, and no two are the same. -/
structure ShowsPositions (l : Level) (s : Valuation) (cells : List Nat) : Prop where
  length_eq : cells.length = (movable l).length
  nodup : cells.Nodup
  reachable : ∀ cell ∈ cells, l.reachable.contains cell
  value : ∀ index cell : Nat, cells[index]? = some cell → s (boxName index) = some (.num cell)

/-- The variables of the movable boxes give these cells, whatever they are: boxes may be on one cell,
and they may be out of reach. -/
structure HasPositions (l : Level) (s : Valuation) (cells : List Nat) : Prop where
  length_eq : cells.length = (movable l).length
  value : ∀ index cell : Nat, cells[index]? = some cell → s (boxName index) = some (.num cell)

/-- A state that shows boxes at positions has these positions. -/
theorem ShowsPositions.hasPositions {l : Level} {s : Valuation} {cells : List Nat}
    (h : ShowsPositions l s cells) : HasPositions l s cells :=
  ⟨h.length_eq, h.value⟩

/-- A state shows a set of boxes. -/
def Kind.Shows (l : Level) : Kind → Valuation → Finset Nat → Prop
  | .tile, s, boxes => ShowsTiles l s boxes
  | .box, s, boxes => ∃ cells, ShowsPositions l s cells ∧ cells.toFinset = boxes

/-- Two states differ at most in variables of boxes. -/
def DiffersInBoxes (s after : Valuation) : Prop :=
  ∀ name, (∀ n, name ≠ boxName n) → after name = s name

/-- Assigning to the variable of a box leaves a difference in variables of boxes only. -/
theorem DiffersInBoxes.update {s after : Valuation} (h : DiffersInBoxes s after) (n : Nat)
    (v : Option Value) : DiffersInBoxes s (Function.update after (boxName n) v) := by
  intro name hname
  rw [Function.update_of_ne (hname n), h name hname]

theorem DiffersInBoxes.refl (s : Valuation) : DiffersInBoxes s s :=
  fun _ _ => rfl

/-- What an encoding has to do, for the sets of boxes that states show. -/
structure Faithful (l : Level) (e : Encoding) (Shows : Valuation → Finset Nat → Prop) : Prop where
  reachable : ∀ {s boxes}, Shows s boxes → ∀ cell ∈ boxes, l.reachable.contains cell
  /-- Only the variables of boxes matter. -/
  congr : ∀ {s after boxes}, Shows s boxes → (∀ n, after (boxName n) = s (boxName n)) →
    Shows after boxes
  /-- The initial values show the boxes of the level. -/
  initial : ∀ {s}, (∀ x ∈ e.vars, s x.name = x.initial.eval fun _ => none) →
    Shows s (movable l).toFinset
  names : ∀ x ∈ e.vars, ∃ n, x.name = boxName n
  nodup : (e.vars.map Variable.name).Nodup
  occupied : ∀ {s boxes}, Shows s boxes → ∀ cell,
    (e.occupied cell).eval s = some (.bool (decide (cell ∈ boxes ∪ l.fixedBoxes)))
  goal : ∀ {s boxes}, Shows s boxes →
    e.goal.eval s = some (.bool (decide (∀ goal ∈ l.goals, goal ∈ boxes ∪ l.fixedBoxes)))
  /-- Shoving moves the box on the first cell, if there is one, to the second. -/
  shove : ∀ {s boxes target beyond}, Shows s boxes → l.reachable.contains target →
    l.reachable.contains beyond → target ≠ beyond → (target ∈ boxes → beyond ∉ boxes) →
    ∃ after, carryOut s (e.shove target beyond) = some after ∧
      Shows after (pushed target beyond boxes) ∧ DiffersInBoxes s after
  shove_targets : ∀ {s boxes target beyond}, Shows s boxes → l.reachable.contains target →
    l.reachable.contains beyond → ∀ a ∈ e.shove target beyond, ∃ v, s a.target = some v
  /-- Whether a way to slide a box picks that box can be told. -/
  pick : ∀ {s boxes source target}, Shows s boxes → l.reachable.contains source →
    ∀ way ∈ e.slides source target, ∃ b, way.1.eval s = some (.bool b)
  /-- The ways to slide a box that pick one move the box on the first cell to the second. -/
  slide : ∀ {s boxes source target}, Shows s boxes → l.reachable.contains source →
    l.reachable.contains target → source ≠ target → target ∉ boxes →
    ∀ way ∈ e.slides source target, way.1.eval s = some (.bool true) →
      source ∈ boxes ∧ ∃ after, carryOut s way.2 = some after ∧
        Shows after (insert target (boxes.erase source)) ∧ DiffersInBoxes s after
  slide_targets : ∀ {source target}, ∀ way ∈ e.slides source target,
    ∀ a ∈ way.2, ∃ n, a.target = boxName n
  /-- A box on the first cell is picked by some way to slide it. -/
  exists_slide : ∀ {s boxes source target}, Shows s boxes → source ∈ boxes →
    ∃ way ∈ e.slides source target, way.1.eval s = some (.bool true)

end Encoding

end Sokoban
