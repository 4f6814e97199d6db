import Mathlib.Data.List.TakeWhile
import Mathlib.Tactic.Ring
import Sokoban.Document
import Sokoban.Proofs.Steps

/-! # The level that a block of rows draws

A block of rows is a grid of characters.  It draws a level (`Draws`) if the level has as many rows
as the block and as many columns as the longest row has without the fillers at its end, and if each
cell is what the character at its place says.  That determines the level (`Draws.unique`).

A block whose characters all mean something draws a level just if there is one player in it.  The
reader finds that level (`exists_levelOfRows`), and otherwise says that there are no players or too
many (`levelOfRows_of_none`, `levelOfRows_of_many`).

Fillers are dropped and written freely, so nothing may depend on them:  `SameKind` relates the
characters that make the same of a cell.

The reader goes through a block in two ways, and both are brought to coordinates here.  Tiles come
from the padded rows, one behind the other, where a cell is found at `y * width + x`
(`getElem?_padded`); players and goals come from a list of characters with their coordinates
(`mem_cellsOf`).  What a block draws is then said by `markAt` alone, and rows need not be taken
apart again.
-/

namespace Sokoban.Document

/-- The character at a column and a row of a block; where the row is too short, there is floor. -/
def markAt (rows : List Row) (x y : Nat) : Char :=
  (rows[y]?.getD [])[x]?.getD '-'

/-- The number of characters of a block that put the player somewhere. -/
def playerCount (rows : List Row) : Nat :=
  rows.flatten.countP isPlayer

/-- A block of rows draws a level. -/
structure Draws (rows : List Row) (l : Level) : Prop where
  rows_eq : l.rows = rows.length
  columns_le : ∀ row ∈ rows, (trimRow row).length ≤ l.columns
  exists_columns : ∃ row ∈ rows, (trimRow row).length = l.columns
  tile_eq : ∀ x < l.columns, ∀ y < l.rows,
    l.board.tiles[y * l.columns + x]? = some (tile (markAt rows x y))
  player : ∃ x < l.columns, ∃ y < l.rows,
    isPlayer (markAt rows x y) ∧ l.player = y * l.columns + x
  goals : ∀ cell, cell ∈ l.goals ↔ ∃ x < l.columns, ∃ y < l.rows,
    isGoal (markAt rows x y) ∧ cell = y * l.columns + x

/-- Two characters make the same of a cell. -/
structure SameKind (c d : Char) : Prop where
  tile : tile c = tile d
  player : isPlayer c = isPlayer d
  goal : isGoal c = isGoal d

variable {rows : List Row} {row : Row} {x y width cell : Nat} {p : Char → Bool} {c d : Char}

theorem SameKind.symm (h : SameKind c d) : SameKind d c :=
  ⟨h.tile.symm, h.player.symm, h.goal.symm⟩

theorem SameKind.refl (c : Char) : SameKind c c :=
  ⟨rfl, rfl, rfl⟩

/-- Fillers stand for floor and nothing else. -/
theorem SameKind.of_filler (h : isFiller c) : SameKind c '-' := by
  simp only [isFiller, Bool.or_eq_true, beq_iff_eq] at h
  rcases h with (rfl | rfl) | rfl <;> exact ⟨by decide, by decide, by decide⟩

/-! ## Trimming -/

/-- Trimming drops fillers from the end. -/
theorem exists_fillers (row : Row) :
    ∃ fillers, row = trimRow row ++ fillers ∧ ∀ c ∈ fillers, isFiller c := by
  refine ⟨(row.reverse.takeWhile isFiller).reverse, ?_, fun c hc => ?_⟩
  · rw [trimRow, Text.dropEndWhile, ← List.reverse_append, List.takeWhile_append_dropWhile,
      List.reverse_reverse]
  · exact List.mem_takeWhile_imp (List.mem_reverse.mp hc)

/-- Trimming drops no player, since a filler is none. -/
theorem countP_trimRow (row : Row) : (trimRow row).countP isPlayer = row.countP isPlayer := by
  obtain ⟨fillers, hrow, hfillers⟩ := exists_fillers row
  have hnone : fillers.countP isPlayer = 0 := by
    rw [List.countP_eq_zero]
    intro c hc hplayer
    rw [(SameKind.of_filler (hfillers c hc)).player] at hplayer
    cases hplayer
  conv_rhs => rw [hrow, List.countP_append, hnone, Nat.add_zero]

/-- A block has as many players as its trimmed rows have, so they may be counted before or after. -/
theorem playerCount_trim (rows : List Row) :
    playerCount (rows.map trimRow) = playerCount rows := by
  simp only [playerCount, List.countP_flatten, List.map_map, Function.comp_def, countP_trimRow]

/-- **Trimming makes nothing else of a cell.** Where a filler has been dropped there is floor, and
that is what the filler stood for. -/
theorem sameKind_markAt_trim (rows : List Row) (x y : Nat) :
    SameKind (markAt (rows.map trimRow) x y) (markAt rows x y) := by
  rw [markAt, markAt, List.getElem?_map]
  cases rows[y]? with
  | none => exact .refl _
  | some row =>
      obtain ⟨fillers, hrow, hfillers⟩ := exists_fillers row
      simp only [Option.map_some, Option.getD_some]
      conv => arg 2; rw [hrow]
      rw [List.getElem?_append]
      split
      next => exact .refl _
      next hlong =>
        rw [List.getElem?_eq_none (Nat.le_of_not_lt hlong), Option.getD_none]
        cases hc : fillers[x - (trimRow row).length]? with
        | none => exact .refl _
        | some c => exact (SameKind.of_filler (hfillers c (List.mem_of_getElem? hc))).symm

/-! ## Cells of a grid -/

/-- Rows of the same length, one behind the other: the cell at a column and a row is where the
arithmetic of boards says it is. -/
theorem getElem?_flatten_of_length (h : ∀ row ∈ rows, row.length = width) (hx : x < width) :
    rows.flatten[y * width + x]? = rows[y]?.bind (·[x]?) := by
  induction rows generalizing y with
  | nil => simp
  | cons row rows ih =>
      have hrow := h row List.mem_cons_self
      have hrows := fun r hr => h r (List.mem_cons_of_mem row hr)
      cases y with
      | zero => simp [List.getElem?_append, hrow, hx]
      | succ y =>
          have hpast : row.length ≤ (y + 1) * width + x := by
            rw [hrow, Nat.succ_mul]
            omega
          have hindex : (y + 1) * width + x - row.length = y * width + x := by
            rw [hrow, Nat.succ_mul]
            omega
          rw [List.flatten_cons, List.getElem?_append_right hpast, hindex, ih hrows,
            List.getElem?_cons_succ]

/-- Rows of the same length fill a grid. -/
theorem length_flatten_of_length (h : ∀ row ∈ rows, row.length = width) :
    rows.flatten.length = rows.length * width := by
  induction rows with
  | nil => simp
  | cons row rows ih =>
      rw [List.flatten_cons, List.length_append, h row List.mem_cons_self,
        ih fun r hr => h r (List.mem_cons_of_mem row hr), List.length_cons]
      ring

/-- A row that is not too long is as long as the others once it is padded. -/
theorem length_padRow (h : row.length ≤ width) : (padRow width row).length = width := by
  rw [padRow, List.length_append, List.length_replicate]
  omega

/-- Padding shows floor where a row ends early. -/
theorem getElem?_padRow (hx : x < width) : (padRow width row)[x]? = some (row[x]?.getD '-') := by
  rw [padRow, List.getElem?_append]
  split
  next hlt => simp [List.getElem?_eq_getElem hlt]
  next hge =>
    rw [List.getElem?_replicate, if_pos (by omega), List.getElem?_eq_none (Nat.le_of_not_lt hge)]
    rfl

/-- All padded rows are equally long, so that they make a grid. -/
theorem length_of_mem_padded (hwidth : ∀ row ∈ rows, row.length ≤ width) :
    ∀ row ∈ rows.map (padRow width), row.length = width := by
  intro row hrow
  obtain ⟨short, hshort, rfl⟩ := List.mem_map.mp hrow
  exact length_padRow (hwidth short hshort)

/-- The characters of a block in reading order, every row filled up. -/
theorem getElem?_padded (hwidth : ∀ row ∈ rows, row.length ≤ width) (hx : x < width)
    (hy : y < rows.length) :
    (rows.flatMap (padRow width))[y * width + x]? = some (markAt rows x y) := by
  rw [List.flatMap_def, getElem?_flatten_of_length (length_of_mem_padded hwidth) hx, List.getElem?_map,
    List.getElem?_eq_getElem hy]
  simp [getElem?_padRow hx, markAt, List.getElem?_eq_getElem hy]

/-- A block that is padded has a character for every cell of the board. -/
theorem length_padded (hwidth : ∀ row ∈ rows, row.length ≤ width) :
    (rows.flatMap (padRow width)).length = rows.length * width := by
  rw [List.flatMap_def, length_flatten_of_length (length_of_mem_padded hwidth),
    List.length_map]

/-! ## Marks -/

/-- Numbering the characters of a row loses none of them. -/
theorem map_fst_marksOfRow (row : Row) (y : Nat) :
    ((row.zipIdx.map fun (c, x) => (c, x, y)).map (·.1)) = row := by
  rw [List.map_map]
  exact List.zipIdx_map_fst 0 row

/-- The characters of a block, without their coordinates, are the block row by row. -/
theorem map_fst_marks (rows : List Row) : (marks rows).map (·.1) = rows.flatten := by
  rw [marks, List.map_flatMap]
  simp only [map_fst_marksOfRow]
  rw [List.flatMap_def, List.zipIdx_map_fst]

/-- **The characters of a block** stand with the coordinates that they are found at, the column in
the row and the row in the block, both counted from nought. -/
theorem mem_marks : (c, x, y) ∈ marks rows ↔ ∃ row, rows[y]? = some row ∧ row[x]? = some c := by
  simp only [marks, List.mem_flatMap, List.mem_map, Prod.exists, List.mem_zipIdx_iff_getElem?]
  constructor
  · intro h
    obtain ⟨row, z, hrow, d, w, hd, heq⟩ := h
    simp only [Prod.mk.injEq] at heq
    obtain ⟨rfl, rfl, rfl⟩ := heq
    exact ⟨row, hrow, hd⟩
  · intro h
    obtain ⟨row, hrow, hc⟩ := h
    exact ⟨row, y, hrow, c, x, hc, rfl⟩

/-- What is not floor stands within a row. -/
theorem exists_of_markAt (hfloor : p '-' = false) (h : p (markAt rows x y)) :
    ∃ row, rows[y]? = some row ∧ row[x]? = some (markAt rows x y) := by
  rw [markAt] at h ⊢
  cases hrow : rows[y]? with
  | none => simp [hrow, hfloor] at h
  | some row =>
      rw [hrow, Option.getD_some] at h
      cases hc : row[x]? with
      | none => simp [hc, hfloor] at h
      | some c => exact ⟨row, rfl, by simp [hc]⟩

/-- The cells of a kind are those where the block has a character of that kind.  The number of a
cell tells its row and column, since the rows are equally long after padding. -/
theorem mem_cellsOf (hfloor : p '-' = false) (hwidth : ∀ row ∈ rows, row.length ≤ width) :
    cell ∈ cellsOf width p (marks rows) ↔ ∃ x < width, ∃ y < rows.length,
      p (markAt rows x y) ∧ cell = y * width + x := by
  simp only [cellsOf, List.mem_map, List.mem_filter, Prod.exists, mem_marks]
  constructor
  · intro h
    obtain ⟨c, x, y, ⟨⟨row, hrow, hc⟩, hp⟩, rfl⟩ := h
    have hmark : markAt rows x y = c := by simp [markAt, hrow, hc]
    obtain ⟨hx, -⟩ := List.getElem?_eq_some_iff.mp hc
    obtain ⟨hy, -⟩ := List.getElem?_eq_some_iff.mp hrow
    have hle := hwidth row (List.mem_of_getElem? hrow)
    exact ⟨x, by omega, y, hy, hmark ▸ hp, rfl⟩
  · intro h
    obtain ⟨x, -, y, -, hp, rfl⟩ := h
    exact ⟨_, x, y, ⟨exists_of_markAt hfloor hp, hp⟩, rfl⟩

/-- There are as many cells for players as there are characters for them, whatever the width is. -/
theorem length_cellsOf_isPlayer (width : Nat) (rows : List Row) :
    (cellsOf width isPlayer (marks rows)).length = playerCount rows := by
  rw [cellsOf, List.length_map, playerCount, ← map_fst_marks, List.countP_map,
    ← List.countP_eq_length_filter]
  rfl

/-- **If all characters mean something**, only a second player is a fault.  It is found while
reading, so the induction has to know whether one has been seen. -/
theorem firstFault_eq {ms : List (Char × Nat × Nat)} (seen : Bool) (h : ∀ m ∈ ms, isMark m.1) :
    firstFault seen ms =
      if 1 < seen.toNat + ms.countP (isPlayer ·.1) then some .multiplePlayers else none := by
  induction ms generalizing seen with
  | nil => cases seen <;> rfl
  | cons m ms ih =>
      obtain ⟨c, x, y⟩ := m
      have hmark : isMark c := h _ List.mem_cons_self
      have hrest := fun seen => ih seen fun m hm => h m (List.mem_cons_of_mem _ hm)
      rw [firstFault, List.countP_cons]
      by_cases hplayer : isPlayer c
      · cases seen with
        | true => simp [hplayer]
        | false =>
            simp only [hplayer, if_true, Bool.false_eq_true, if_false, hrest, Bool.toNat_true,
              Bool.toNat_false, Nat.zero_add, Nat.add_comm]
      · rw [if_neg hplayer, if_pos hmark, hrest]
        simp [hplayer]

/-! ## Levels -/

/-- A maximum is found by going through the list once. -/
theorem foldl_max_le {ns : List Nat} {m n : Nat} :
    ns.foldl max m ≤ n ↔ m ≤ n ∧ ∀ k ∈ ns, k ≤ n := by
  induction ns generalizing m with
  | nil => simp
  | cons k ns ih => rw [List.foldl_cons, ih, List.forall_mem_cons, max_le_iff, and_assoc]

/-- No row is longer than the width of its block. -/
theorem length_le_width (h : row ∈ rows) : row.length ≤ Document.width rows :=
  (foldl_max_le.mp (Nat.le_refl _)).2 _ (List.mem_map_of_mem h)

/-- Some row is as long as the width says.  No player is beyond it, since trimmed rows end in
something else than fillers. -/
theorem exists_length_eq_width (h : rows ≠ []) :
    ∃ row ∈ rows, row.length = Document.width rows := by
  by_contra hnone
  push Not at hnone
  have hlt : ∀ row ∈ rows, row.length < Document.width rows := fun row hrow =>
    lt_of_le_of_ne (length_le_width hrow) (hnone row hrow)
  obtain ⟨first, hfirst⟩ := List.exists_mem_of_ne_nil rows h
  have hpos := hlt first hfirst
  have hle : Document.width rows ≤ Document.width rows - 1 := by
    refine foldl_max_le.mpr ⟨Nat.zero_le _, fun n hn => ?_⟩
    obtain ⟨row, hrow, rfl⟩ := List.mem_map.mp hn
    exact Nat.le_sub_one_of_lt (hlt row hrow)
  omega

/-- Trimmed rows have no new characters, so all of them still mean something. -/
theorem isMark_trim (h : ∀ row ∈ rows, ∀ c ∈ row, isMark c) :
    ∀ m ∈ marks (rows.map trimRow), isMark m.1 := by
  intro m hm
  obtain ⟨row, hrow, hc⟩ := mem_marks.mp hm
  rw [List.getElem?_map, Option.map_eq_some_iff] at hrow
  obtain ⟨long, hlong, rfl⟩ := hrow
  obtain ⟨fillers, heq, -⟩ := exists_fillers long
  refine h long (List.mem_of_getElem? hlong) _ ?_
  rw [heq]
  exact List.mem_append_left _ (List.mem_of_getElem? hc)

/-- What can be wrong with a block whose characters all mean something is the number of its players.
-/
theorem firstFault_marks (h : ∀ row ∈ rows, ∀ c ∈ row, isMark c) :
    firstFault false (marks (rows.map trimRow)) =
      if 1 < playerCount rows then some .multiplePlayers else none := by
  have hcount : (marks (rows.map trimRow)).countP (isPlayer ·.1) = playerCount rows := by
    rw [← playerCount_trim, playerCount, ← map_fst_marks, List.countP_map]
    rfl
  rw [firstFault_eq false (isMark_trim h), hcount, Bool.toNat_false, Nat.zero_add]

/-- A block with several players makes no level. -/
theorem levelOfRows_of_many (h : ∀ row ∈ rows, ∀ c ∈ row, isMark c) (hmany : 1 < playerCount rows) :
    levelOfRows rows = .error .multiplePlayers := by
  simp only [levelOfRows, firstFault_marks h, if_pos hmany]

/-- A block without a player makes no level. -/
theorem levelOfRows_of_none (h : ∀ row ∈ rows, ∀ c ∈ row, isMark c) (hnone : playerCount rows = 0) :
    levelOfRows rows = .error .noPlayer := by
  have hcells : cellsOf (Document.width (rows.map trimRow)) isPlayer (marks (rows.map trimRow)) =
      [] := by
    rw [← List.length_eq_zero_iff, length_cellsOf_isPlayer, playerCount_trim, hnone]
  simp only [levelOfRows, firstFault_marks h, hnone, hcells]
  rfl

/-- **A block with one player** makes the level that it draws.  With the one player found, making
the level asks for two things only: that there is a tile for every cell, and that the player's is
floor. -/
theorem exists_levelOfRows (h : ∀ row ∈ rows, ∀ c ∈ row, isMark c) (hone : playerCount rows = 1) :
    ∃ l, levelOfRows rows = .ok l ∧ Draws rows l := by
  have hwidth : ∀ row ∈ rows.map trimRow, row.length ≤ Document.width (rows.map trimRow) :=
    fun row hrow => length_le_width hrow
  have hlength : (rows.map trimRow).length = rows.length := List.length_map ..
  obtain ⟨player, hplayer⟩ : ∃ player,
      cellsOf (Document.width (rows.map trimRow)) isPlayer (marks (rows.map trimRow)) = [player] := by
    rw [← List.length_eq_one_iff, length_cellsOf_isPlayer, playerCount_trim, hone]
  have htile : ∀ x < Document.width (rows.map trimRow), ∀ y < rows.length,
      (((rows.map trimRow).flatMap
          (padRow (Document.width (rows.map trimRow)))).map tile)[
            y * Document.width (rows.map trimRow) + x]? = some (tile (markAt rows x y)) := by
    intro x hx y hy
    rw [List.getElem?_map, getElem?_padded hwidth hx (hlength ▸ hy), Option.map_some,
      (sameKind_markAt_trim rows x y).tile]
  -- The one player is a character of the block, and a player stands on floor.
  obtain ⟨x, hx, y, hy, hmark, hcell⟩ :=
    (mem_cellsOf (by decide) hwidth).mp (hplayer ▸ List.mem_singleton_self player)
  rw [hlength] at hy
  rw [(sameKind_markAt_trim rows x y).player] at hmark
  have hfloor : tile (markAt rows x y) = .floor := by
    simp only [isPlayer, Bool.or_eq_true, beq_iff_eq] at hmark
    rcases hmark with ((hc | hc) | hc) | hc <;> rw [hc] <;> decide
  have hsize : (((rows.map trimRow).flatMap
      (padRow (Document.width (rows.map trimRow)))).map tile).length =
        rows.length * Document.width (rows.map trimRow) := by
    rw [List.length_map, length_padded hwidth, hlength]
  simp only [levelOfRows, firstFault_marks h, hone, Nat.lt_irrefl, if_false, hplayer]
  unfold Level.make
  rw [dif_pos (by simpa [Board.size] using hsize),
    dif_pos (by rw [List.getElem?_toArray, hcell, htile x hx y hy, hfloor])]
  refine ⟨_, rfl, ⟨rfl, fun row hrow => hwidth _ (List.mem_map_of_mem hrow), ?_, fun x hx y hy => ?_,
    ⟨x, hx, y, hy, hmark, hcell⟩, fun cell => ?_⟩⟩
  · have hsome : rows.map trimRow ≠ [] := by
      rw [← List.length_pos_iff, hlength]
      omega
    obtain ⟨row, hrow, hlong⟩ := exists_length_eq_width hsome
    obtain ⟨long, hmem, rfl⟩ := List.mem_map.mp hrow
    exact ⟨long, hmem, hlong⟩
  · exact (List.getElem?_toArray ..).trans (htile x hx y hy)
  · refine Ascending.mem_ofList.trans ((mem_cellsOf (by decide) hwidth).trans ?_)
    simp only [hlength, (sameKind_markAt_trim rows _ _).goal]
    rfl

/-! ## Uniqueness -/

/-- A cell has a column and a row. -/
theorem exists_coordinates {columns height : Nat} (h : cell < height * columns) :
    ∃ x < columns, ∃ y < height, cell = y * columns + x := by
  rcases Nat.eq_zero_or_pos columns with rfl | hpos
  · simp at h
  · exact ⟨cell % columns, Nat.mod_lt _ hpos, cell / columns,
      Nat.div_lt_of_lt_mul (Nat.mul_comm height columns ▸ h), (Nat.div_add_mod' cell columns).symm⟩

/-- Levels with the same board, player and goals are the same, since the reachable cells are worked
out from these. -/
theorem level_eq {l m : Level} (hboard : l.board = m.board) (hplayer : l.player = m.player)
    (hgoals : l.goals = m.goals) : l = m := by
  cases l
  cases m
  simp_all

variable {others : List Row} {l m : Level}

/-- **There is no player character but the one for the player's cell**, where a block has only one
of them.  Two coordinates that show it would be two members of the list of players. -/
theorem Draws.eq_player (h : Draws rows l) (hone : playerCount rows = 1) (hx : x < l.columns)
    (hy : y < l.rows) (hplayer : isPlayer (markAt rows x y)) : y * l.columns + x = l.player := by
  have hwidth : ∀ row ∈ rows.map trimRow, row.length ≤ l.columns := by
    intro row hrow
    obtain ⟨long, hlong, rfl⟩ := List.mem_map.mp hrow
    exact h.columns_le long hlong
  have hcell : ∀ x < l.columns, ∀ y < l.rows, isPlayer (markAt rows x y) →
      y * l.columns + x ∈ cellsOf l.columns isPlayer (marks (rows.map trimRow)) := by
    intro x hx y hy hmark
    refine (mem_cellsOf (by decide) hwidth).mpr ⟨x, hx, y, ?_, ?_, rfl⟩
    · rwa [List.length_map, ← h.rows_eq]
    · rwa [(sameKind_markAt_trim rows x y).player]
  obtain ⟨only, honly⟩ : ∃ only, cellsOf l.columns isPlayer (marks (rows.map trimRow)) = [only] := by
    rw [← List.length_eq_one_iff, length_cellsOf_isPlayer, playerCount_trim, hone]
  simp only [honly, List.mem_singleton] at hcell
  obtain ⟨x', hx', y', hy', hmark, heq⟩ := h.player
  rw [heq, hcell x hx y hy hplayer, hcell x' hx' y' hy' hmark]

/-- **A block draws one level**, and so do two blocks of the same size with characters of the same
kinds. -/
theorem Draws.unique (hl : Draws rows l) (hm : Draws others m) (hone : playerCount rows = 1)
    (hrows : others.length = rows.length) (hcolumns : m.columns = l.columns)
    (hkind : ∀ x y, SameKind (markAt others x y) (markAt rows x y)) : m = l := by
  have hheight : m.rows = l.rows := by rw [hl.rows_eq, hm.rows_eq, hrows]
  have hsize : m.size = l.size := congrArg₂ (· * ·) hheight hcolumns
  -- Tiles, player and goals are each read off the characters of the block.
  refine level_eq ?_ ?_ ?_
  · have htiles : m.board.tiles = l.board.tiles := by
      refine Array.ext_getElem? fun cell => ?_
      by_cases hcell : cell < l.size
      · obtain ⟨x, hx, y, hy, heq⟩ := exists_coordinates hcell
        have htile := hm.tile_eq x (hcolumns ▸ hx) y (hheight ▸ hy)
        rw [hcolumns, (hkind x y).tile] at htile
        exact heq ▸ htile.trans (hl.tile_eq x hx y hy).symm
      · rw [Array.getElem?_eq_none, Array.getElem?_eq_none]
        · exact Nat.le_of_not_lt (l.tiles_size ▸ hcell)
        · exact Nat.le_of_not_lt (m.tiles_size ▸ (hsize ▸ hcell : ¬ cell < m.size))
    cases hm' : m.board
    cases hl' : l.board
    simp only [Level.rows, Level.columns, hm', hl'] at hheight hcolumns htiles
    rw [hheight, hcolumns, htiles]
  · obtain ⟨x, hx, y, hy, hmark, heq⟩ := hm.player
    rw [(hkind x y).player] at hmark
    rw [heq, hcolumns]
    exact hl.eq_player hone (hcolumns ▸ hx) (hheight ▸ hy) hmark
  · refine Ascending.eq_of_pairwise_lt m.goals_ascending l.goals_ascending fun cell => ?_
    rw [hm.goals, hl.goals, hcolumns, hheight]
    simp only [(hkind _ _).goal]

end Sokoban.Document
