import Mathlib.Data.Finset.Card
import Mathlib.Data.Finset.Range
import Mathlib.Order.Bounds.Defs
import Mathlib.Tactic.Linarith
import Mathlib.Tactic.Ring
import Sokoban.Level
import Sokoban.Proofs.CellSet

/-! # The region of a cell

Flooding a board from a cell finds exactly the cells that can be walked to.

`Board.Walk` is the walk itself: a chain of neighbours through cells that are no walls.  The flood
keeps a list of pending cells, and `Board.Frontier` is what stays true of it: everything seen can be
walked to, and a seen cell that is no longer pending has seen all its open neighbours.  Each round
takes one cell off the pending list and moves the unseen cells it finds onto it, so that pending and
unseen cells together get one fewer; this is why as much fuel as there are cells is enough, and why
the list is empty at the end.

Neighbours are found by row and column; `neighbor?_eq_some_iff` says the same in cell numbers.  It
is the only place where rows and columns are taken apart, and all later files speak of neighbours.

The last section says the same of a level, whose reachable cells are the region of the player's
cell: they are on the board and open, and between any two of them walls alone make the difference.
-/

namespace Sokoban

namespace Board

/-! ## Neighbours -/

/-- Cells within their row are on the board if the row is.  This is the one inequality about rows,
columns and numbers of cells that everything else here comes back to. -/
theorem add_lt_mul_iff {rows columns row column : Nat} (h : column < columns) :
    row * columns + column < rows * columns ↔ row < rows := by
  constructor
  · intro hlt
    by_contra hle
    have hmul := Nat.mul_le_mul_right columns (Nat.le_of_not_lt hle)
    omega
  · intro hrow
    calc row * columns + column
        < row * columns + columns := by omega
      _ = (row + 1) * columns := by ring
      _ ≤ rows * columns := Nat.mul_le_mul_right _ hrow

/-- **The neighbour in a direction** is the cell at the offset of that direction, provided that this
step stays within the row and within the board.  The row need not be asked for: a number on the
board that is reached within its columns is in some row of it. -/
theorem neighbor?_eq_some_iff {b : Board} {cell n : Nat} {dir : Direction} :
    b.neighbor? cell dir = some n ↔
      0 ≤ (cell % b.columns : Nat) + dir.dx ∧ (cell % b.columns : Nat) + dir.dx < b.columns ∧
      (n : Int) = cell + dir.offset b.columns ∧ n < b.size := by
  have hcell : ((cell % b.columns : Nat) : Int) + (cell / b.columns : Nat) * b.columns = cell := by
    exact_mod_cast Nat.mod_add_div' cell b.columns
  generalize hx : ((cell % b.columns : Nat) : Int) + dir.dx = x
  generalize hy : ((cell / b.columns : Nat) : Int) + dir.dy = y
  have hoffset : (cell : Int) + dir.offset b.columns = y * b.columns + x := by
    rw [← hx, ← hy, ← hcell, Direction.offset]
    ring
  simp only [neighbor?, hx, hy, hoffset, size]
  constructor
  · intro h
    split at h
    next hin =>
      obtain ⟨hx0, hx1, hy0, hy1⟩ := hin
      obtain ⟨row, rfl⟩ := Int.eq_ofNat_of_zero_le hy0
      obtain ⟨column, rfl⟩ := Int.eq_ofNat_of_zero_le hx0
      obtain rfl : row * b.columns + column = n := by simpa using h
      have hcolumn : column < b.columns := by exact_mod_cast hx1
      have hrow : row < b.rows := by exact_mod_cast hy1
      exact ⟨hx0, hx1, by push_cast; rfl, (add_lt_mul_iff hcolumn).mpr hrow⟩
    next => simp at h
  · intro h
    obtain ⟨hx0, hx1, hn, hsize⟩ := h
    obtain ⟨column, rfl⟩ := Int.eq_ofNat_of_zero_le hx0
    -- A row above the board would make the number of the cell negative.
    have hy0 : 0 ≤ y := by
      by_contra hneg
      nlinarith [Int.natCast_nonneg n]
    obtain ⟨row, rfl⟩ := Int.eq_ofNat_of_zero_le hy0
    obtain rfl : n = row * b.columns + column := by exact_mod_cast hn
    have hcolumn : column < b.columns := by exact_mod_cast hx1
    have hrow : row < b.rows := (add_lt_mul_iff hcolumn).mp hsize
    rw [if_pos ⟨hx0, hx1, hy0, by exact_mod_cast hrow⟩]
    simp

/-- A neighbour is on the board, even that of a cell that is not. -/
theorem neighbor?_lt {b : Board} {cell n : Nat} {dir : Direction}
    (h : b.neighbor? cell dir = some n) : n < b.size :=
  (neighbor?_eq_some_iff.mp h).2.2.2

/-- No cell is its own neighbour: every direction leads to another column or to another row. -/
theorem neighbor?_ne {b : Board} {cell n : Nat} {dir : Direction}
    (h : b.neighbor? cell dir = some n) : n ≠ cell := by
  obtain ⟨hlow, hhigh, hn, -⟩ := neighbor?_eq_some_iff.mp h
  intro heq
  subst heq
  cases dir <;> simp [Direction.offset, Direction.dx, Direction.dy] at hlow hhigh hn <;> omega

/-- The open neighbours are the neighbours in all four directions that are no walls. -/
theorem mem_openNeighbors {b : Board} {cell n : Nat} :
    n ∈ b.openNeighbors cell ↔ (∃ dir, b.neighbor? cell dir = some n) ∧ b.isOpen n := by
  simp only [openNeighbors, List.mem_filter, List.mem_filterMap, Direction.mem_all, true_and]

/-- Flooding discovers no cells beyond the board. -/
theorem openNeighbors_lt {b : Board} {cell : Nat} : ∀ n ∈ b.openNeighbors cell, n < b.size := by
  intro n hn
  obtain ⟨⟨dir, hdir⟩, -⟩ := mem_openNeighbors.mp hn
  exact neighbor?_lt hdir

/-! ## Walks -/

/-- A cell can be walked to from `start`: it is `start`, or an open neighbour of such a cell. -/
inductive Walk (b : Board) (start : Nat) : Nat → Prop
  | here : Walk b start start
  | step {cell n : Nat} {dir : Direction} (walk : Walk b start cell)
      (hneighbor : b.neighbor? cell dir = some n) (hopen : b.isOpen n) : Walk b start n

/-- A walk stays on the board, since every step of it leads to a neighbour. -/
theorem Walk.lt_size {b : Board} {start cell : Nat} (hstart : start < b.size)
    (h : b.Walk start cell) : cell < b.size := by
  cases h with
  | here => exact hstart
  | step _ hneighbor _ => exact neighbor?_lt hneighbor

/-- A walk from an open cell stays on open cells. -/
theorem Walk.isOpen {b : Board} {start cell : Nat} (hstart : b.isOpen start)
    (h : b.Walk start cell) : b.isOpen cell := by
  cases h with
  | here => exact hstart
  | step _ _ hopen => exact hopen

/-! ## The flood -/

/-- The cells of a board that have not been seen. -/
def unseen (b : Board) (seen : CellSet) : Finset Nat :=
  (Finset.range b.size).filter fun cell => seen.contains cell = false

/-- **Seeing a cell** for the first time leaves one fewer that is unseen.  This is what the fuel of
the flood is counted by. -/
theorem card_unseen_insert {b : Board} {seen : CellSet} {cell : Nat} (hlt : cell < b.size)
    (hnew : seen.contains cell = false) :
    (b.unseen (seen.insert cell)).card + 1 = (b.unseen seen).card := by
  have hmem : cell ∈ b.unseen seen := by simp [unseen, hlt, hnew]
  have herase : b.unseen (seen.insert cell) = (b.unseen seen).erase cell := by
    ext n
    simp only [unseen, Finset.mem_erase, Finset.mem_filter, Finset.mem_range,
      Bool.eq_false_iff, ne_eq, CellSet.contains_insert]
    tauto
  rw [herase, Finset.card_erase_add_one hmem]

/-- At the start of a flood all cells but one are unseen. -/
theorem card_unseen_start {b : Board} {start : Nat} (hstart : start < b.size) :
    (b.unseen ((CellSet.withCapacity b.size).insert start)).card + 1 = b.size := by
  rw [card_unseen_insert hstart (CellSet.contains_withCapacity b.size start)]
  simp [unseen]

/-- What discovering a list of cells does: they are seen afterwards, those that were unseen are
pending, and what is gained in pending cells is lost in unseen ones.  The last part is the measure
that goes down with every round, since the cell of the round is no longer pending. -/
theorem foldl_discover {b : Board} (cells : List Nat) (hlt : ∀ n ∈ cells, n < b.size)
    (pending : List Nat) (seen : CellSet) :
    let next := cells.foldl discover (pending, seen)
    (∀ n, next.2.contains n ↔ seen.contains n ∨ n ∈ cells) ∧
      (∀ n, n ∈ next.1 ↔ n ∈ pending ∨ n ∈ cells ∧ seen.contains n = false) ∧
      (b.unseen next.2).card + next.1.length = (b.unseen seen).card + pending.length := by
  induction cells generalizing pending seen with
  | nil => simp
  | cons cell rest ih =>
      have hrest : ∀ n ∈ rest, n < b.size := fun n hn => hlt n (List.mem_cons_of_mem _ hn)
      rw [List.foldl_cons]
      by_cases hseen : seen.contains cell
      · have hstep : discover (pending, seen) cell = (pending, seen) := by simp [discover, hseen]
        rw [hstep]
        obtain ⟨hcontains, hpending, hcard⟩ := ih hrest pending seen
        refine ⟨fun n => ?_, fun n => ?_, hcard⟩
        · rw [hcontains]
          grind
        · rw [hpending]
          grind
      · have hnew : seen.contains cell = false := by simpa using hseen
        -- What is seen no longer counts as unseen, but it is pending now.
        have hstep : discover (pending, seen) cell = (cell :: pending, seen.insert cell) := by
          simp [discover, hnew]
        rw [hstep]
        obtain ⟨hcontains, hpending, hcard⟩ := ih hrest (cell :: pending) (seen.insert cell)
        refine ⟨fun n => ?_, fun n => ?_, ?_⟩
        · rw [hcontains, CellSet.contains_insert, List.mem_cons]
          tauto
        · rw [hpending, Bool.eq_false_iff, ne_eq, CellSet.contains_insert, Bool.eq_false_iff,
            ne_eq, List.mem_cons, List.mem_cons]
          grind
        · have hone := card_unseen_insert (hlt cell List.mem_cons_self) hnew
          rw [List.length_cons] at hcard
          omega

/-- What stays true while a board is flooded from `start`. -/
structure Frontier (b : Board) (start : Nat) (pending : List Nat) (seen : CellSet) : Prop where
  start_seen : seen.contains start
  pending_seen : ∀ cell ∈ pending, seen.contains cell
  walk : ∀ cell, seen.contains cell → b.Walk start cell
  /-- Only pending cells may have open neighbours that have not been seen. -/
  closed : ∀ cell, seen.contains cell → cell ∉ pending →
    ∀ n ∈ b.openNeighbors cell, seen.contains n

/-- **A round of the flood** keeps the invariant.  The cell of the round has now seen all its
neighbours, and what is new among these is pending. -/
theorem Frontier.round {b : Board} {start cell : Nat} {pending : List Nat} {seen : CellSet}
    (h : b.Frontier start (cell :: pending) seen) :
    let next := (b.openNeighbors cell).foldl discover (pending, seen)
    b.Frontier start next.1 next.2 := by
  obtain ⟨hcontains, hpending, -⟩ := foldl_discover (b.openNeighbors cell) openNeighbors_lt pending seen
  have hcell : seen.contains cell := h.pending_seen cell List.mem_cons_self
  refine ⟨?_, ?_, ?_, ?_⟩
  · exact (hcontains start).mpr (.inl h.start_seen)
  · intro n hn
    rcases (hpending n).mp hn with hold | ⟨hnew, -⟩
    · exact (hcontains n).mpr (.inl (h.pending_seen n (List.mem_cons_of_mem _ hold)))
    · exact (hcontains n).mpr (.inr hnew)
  · intro n hn
    rcases (hcontains n).mp hn with hold | hnew
    · exact h.walk n hold
    · obtain ⟨⟨dir, hdir⟩, hopen⟩ := mem_openNeighbors.mp hnew
      exact .step (h.walk cell hcell) hdir hopen
  · intro n hn hdone m hm
    -- The neighbours of this round's cell have just been discovered; any other cell that is not
    -- pending was done before.
    by_cases hnc : n = cell
    · exact (hcontains m).mpr (.inr (hnc ▸ hm))
    · have hold : seen.contains n := by
        rcases (hcontains n).mp hn with hold | hnew
        · exact hold
        · by_contra hunseen
          exact hdone ((hpending n).mpr (.inr ⟨hnew, by simpa using hunseen⟩))
      have hnot : n ∉ cell :: pending := by
        simp only [List.mem_cons, not_or]
        exact ⟨hnc, fun hp => hdone ((hpending n).mpr (.inl hp))⟩
      exact (hcontains m).mpr (.inl (h.closed n hold hnot m hm))

/-- **The flood ends with nothing pending**, if it has fuel for every pending and every unseen cell.
Every round uses up one of them. -/
theorem Frontier.flood {b : Board} {start : Nat} (fuel : Nat) {pending : List Nat}
    {seen : CellSet} (h : b.Frontier start pending seen)
    (hfuel : (b.unseen seen).card + pending.length ≤ fuel) :
    b.Frontier start [] (b.flood fuel pending seen) := by
  induction fuel generalizing pending seen with
  | zero =>
      obtain rfl : pending = [] := List.length_eq_zero_iff.mp (by omega)
      exact h
  | succ fuel ih =>
      cases pending with
      | nil => exact h
      | cons cell pending =>
          obtain ⟨-, -, hcard⟩ := foldl_discover (b.openNeighbors cell) openNeighbors_lt pending seen
          rw [List.length_cons] at hfuel
          exact ih h.round (by omega)

/-- **The region of a cell** consists of the cells that can be walked to from it.  A cell that is
seen can be walked to by the invariant; and with nothing pending the seen cells are closed under
open neighbours, so that no walk leads out of them. -/
theorem contains_region {b : Board} {start cell : Nat} (hstart : start < b.size) :
    (b.region start).contains cell ↔ b.Walk start cell := by
  have hbegin : b.Frontier start [start] ((CellSet.withCapacity b.size).insert start) := by
    refine ⟨?_, ?_, ?_, ?_⟩
    · simp [CellSet.contains_insert]
    · simp [CellSet.contains_insert]
    · intro n hn
      obtain rfl : n = start := by simpa [CellSet.contains_insert] using hn
      exact .here
    · intro n hn hdone
      simp_all [CellSet.contains_insert]
  have hend : b.Frontier start [] (b.region start) :=
    hbegin.flood b.size (card_unseen_start hstart).le
  constructor
  · exact hend.walk cell
  · intro hwalk
    induction hwalk with
    | here => exact hend.start_seen
    | step _ hneighbor hopen ih =>
        exact hend.closed _ ih (by simp) _ (mem_openNeighbors.mpr ⟨⟨_, hneighbor⟩, hopen⟩)

end Board

/-! ## The cells within the player's reach -/

namespace Level

variable {l : Level} {cell n : Nat} {dir : Direction}

/-- A cell with a tile is on the board, as a level has just the tiles of its board. -/
theorem lt_size_of_tile {tile : Tile} (h : l.board.tiles[cell]? = some tile) : cell < l.size := by
  have hlt := (Array.getElem?_eq_some_iff.mp h).1
  rw [l.tiles_size] at hlt
  exact hlt

/-- The player stands on the board, on a tile that is floor. -/
theorem player_lt_size : l.player < l.size :=
  lt_size_of_tile l.player_floor

/-- There are columns, since there is a cell for the player. -/
theorem columns_pos : 0 < l.columns := by
  have h : l.player < l.rows * l.columns := player_lt_size
  exact Nat.pos_of_mul_pos_left (Nat.lt_of_le_of_lt (Nat.zero_le _) h)

/-- **The reachable cells** of a level are those that can be walked to from the player's cell,
whatever boxes stand in the way. -/
theorem contains_reachable : l.reachable.contains cell ↔ l.board.Walk l.player cell := by
  rw [l.reachable_eq]
  exact Board.contains_region player_lt_size

/-- The player's own cell is reachable, by the walk without steps. -/
theorem player_reachable : l.reachable.contains l.player :=
  contains_reachable.mpr .here

/-- Reachable cells are on the board, so all tiles that steps look at are there. -/
theorem lt_size_of_reachable (h : l.reachable.contains cell) : cell < l.size :=
  (contains_reachable.mp h).lt_size player_lt_size

/-- Reachable cells are no walls. -/
theorem isOpen_of_reachable (h : l.reachable.contains cell) : l.board.isOpen cell :=
  (contains_reachable.mp h).isOpen (by simp [Board.isOpen, l.player_floor])

/-- The neighbours of a reachable cell are reachable unless they are walls. -/
theorem reachable_neighbor_iff (hcell : l.reachable.contains cell)
    (h : l.neighbor? cell dir = some n) : l.reachable.contains n ↔ l.board.isOpen n := by
  constructor
  · exact isOpen_of_reachable
  · intro hopen
    exact contains_reachable.mpr (.step (contains_reachable.mp hcell) h hopen)

/-- The first cell within reach is reachable, and no reachable cell comes before it. -/
theorem isLeast_firstCell (l : Level) : IsLeast {cell | l.reachable.contains cell} l.firstCell := by
  obtain ⟨m, hfirst, hleast⟩ := CellSet.exists_first? (player_reachable (l := l))
  rw [firstCell, hfirst]
  exact hleast

/-- The last cell within reach is reachable, and no reachable cell comes after it. -/
theorem isGreatest_lastCell (l : Level) :
    IsGreatest {cell | l.reachable.contains cell} l.lastCell := by
  obtain ⟨m, hlast, hgreatest⟩ := CellSet.exists_last? (player_reachable (l := l))
  rw [lastCell, hlast]
  exact hgreatest

/-- The first reachable cell is a lower bound for the player's positions. -/
theorem firstCell_le (h : l.reachable.contains cell) : l.firstCell ≤ cell :=
  (isLeast_firstCell l).2 h

/-- The last reachable cell is an upper bound for the player's positions. -/
theorem le_lastCell (h : l.reachable.contains cell) : cell ≤ l.lastCell :=
  (isGreatest_lastCell l).2 h

end Level

end Sokoban
