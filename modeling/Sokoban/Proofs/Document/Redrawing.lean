import Sokoban.Proofs.Document.Blocks
import Sokoban.Proofs.Drawing

/-! # The rows of a drawing

A drawing has one character for each kind of cell, where blocks of rows have several, and it fills
up every row to the width of the board.  `canonical` chooses the character, and `redraw` is what a
drawing makes of a row: fillers at the end are dropped, others take their places, and every
character becomes the canonical one of its kind.

If a block draws a level, the drawing of the level has the redrawn rows of the block
(`Draws.drawnRows_eq`).  They are rows again, and draw the same level (`Draws.levelOfRows_drawn`).

That they are rows is the harder half, since a row is judged by its ends.  It has to begin and end
with a wall or a box on a goal, fillers apart, and redrawing changes the fillers.  `isRow_eq`
therefore tells a row by the first and the last character that is no filler: fillers may be added or
exchanged then, and the canonical character of a wall or of a box on a goal is one again
(`isEdge_canonical`).
-/

namespace Sokoban.Document

/-- The character that a drawing has for the cells of a kind. -/
def canonical (c : Char) : Char :=
  match tile c with
  | .wall => '#'
  | .box => if isGoal c then 'B' else 'b'
  | .floor =>
    if isPlayer c then (if isGoal c then 'P' else 'p')
    else if isGoal c then '.' else '-'

/-- What a drawing of some width makes of a row. -/
def redraw (width : Nat) (row : Row) : Row :=
  (padRow width (trimRow row)).map canonical

variable {rows : List Row} {row fillers : Row} {l : Level} {c : Char} {x y width : Nat}

/-- Characters that make the same of a cell as a third one make the same of it as each other. -/
theorem SameKind.trans {d e : Char} (h : SameKind c d) (h' : SameKind d e) : SameKind c e :=
  ⟨h.tile.trans h'.tile, h.player.trans h'.player, h.goal.trans h'.goal⟩

/-! ## Canonical characters -/

/-- **The canonical character** makes of a cell what the character itself makes of it.  It is the
one that drawings use, among several with the same meaning. -/
theorem sameKind_canonical (h : isMark c) : SameKind (canonical c) c := by
  have hall : ∀ c ∈ " -_@p+P.*B#$b".toList, tile (canonical c) = tile c ∧
      isPlayer (canonical c) = isPlayer c ∧ isGoal (canonical c) = isGoal c :=
    List.all_iff_forall_prop.mp (by decide)
  obtain ⟨htile, hplayer, hgoal⟩ := hall c (isMark_iff.mp h)
  exact ⟨htile, hplayer, hgoal⟩

/-- A filler has a filler for its canonical character, and nothing else has. -/
theorem isFiller_canonical (h : isMark c) : isFiller (canonical c) = isFiller c := by
  have hall : ∀ c ∈ " -_@p+P.*B#$b".toList, isFiller (canonical c) = isFiller c :=
    List.all_iff_forall_prop.mp (by decide)
  exact hall c (isMark_iff.mp h)

/-- What may stand at the ends of a row may do so after redrawing. -/
theorem isEdge_canonical (h : isEdge c) : isEdge (canonical c) := by
  simp only [isEdge, Bool.or_eq_true, beq_iff_eq] at h
  rcases h with (rfl | rfl) | rfl <;> decide

/-- Characters of a kind have one canonical character: it depends on the tile, the player and the
goal only. -/
theorem SameKind.canonical_eq {d : Char} (h : SameKind c d) : canonical c = canonical d := by
  unfold canonical
  rw [h.tile, h.player, h.goal]

/-- The characters of drawings, which have no counts, brackets or bars among them. -/
theorem mem_drawn (c : Char) : canonical c ∈ "#Bb.Pp-".toList := by
  unfold canonical
  split
  next => decide
  next => split <;> decide
  next =>
    split
    next => split <;> decide
    next => split <;> decide

/-- A filler means something in a row, namely floor. -/
theorem isMark_of_filler (h : isFiller c) : isMark c := by
  simp [isMark, h]

/-! ## Fillers at the end -/

/-- Fillers behind a row are dropped with those at its end. -/
theorem trimRow_append (h : ∀ c ∈ fillers, isFiller c) : trimRow (row ++ fillers) = trimRow row :=
  Text.dropEndWhile_append_of_pos h

/-- There is nothing left to drop from a trimmed row. -/
theorem trimRow_trimRow (row : Row) : trimRow (trimRow row) = trimRow row := by
  obtain ⟨fillers, hrow, hfillers⟩ := exists_fillers row
  conv_rhs => rw [hrow]
  exact (trimRow_append hfillers).symm

/-- What is dropped does not depend on the characters of a kind.  So a row that is redrawn is
trimmed in the same places. -/
theorem dropWhile_canonical (h : ∀ c ∈ row, isMark c) :
    (row.map canonical).dropWhile isFiller = (row.dropWhile isFiller).map canonical := by
  induction row with
  | nil => rfl
  | cons c rest ih =>
      have hrest := ih fun d hd => h d (List.mem_cons_of_mem c hd)
      rw [List.map_cons, List.dropWhile_cons, List.dropWhile_cons,
        isFiller_canonical (h c List.mem_cons_self)]
      split
      next => exact hrest
      next => rfl

/-- Fillers are dropped before or after the characters are exchanged, with the same result. -/
theorem trimRow_map_canonical (h : ∀ c ∈ row, isMark c) :
    trimRow (row.map canonical) = (trimRow row).map canonical := by
  have hreverse : ∀ c ∈ row.reverse, isMark c := fun c hc => h c (List.mem_reverse.mp hc)
  rw [trimRow, Text.dropEndWhile, ← List.map_reverse, dropWhile_canonical hreverse,
    ← List.map_reverse]
  rfl

/-- A row is filled up with fillers. -/
theorem padding_isFiller (width : Nat) (row : Row) :
    ∀ c ∈ List.replicate (width - row.length) '-', isFiller c := by
  intro c hc
  obtain rfl := (List.mem_replicate.mp hc).2
  decide

/-- A row that is trimmed and filled up consists of characters that mean something. -/
theorem isMark_padRow (h : ∀ c ∈ row, isMark c) : ∀ c ∈ padRow width (trimRow row), isMark c := by
  obtain ⟨fillers, hrow, -⟩ := exists_fillers row
  intro c hc
  rcases List.mem_append.mp hc with htrim | hpadding
  · exact h c (hrow ▸ List.mem_append_left _ htrim)
  · exact isMark_of_filler (padding_isFiller _ _ c hpadding)

/-- What is left of a redrawn row without fillers is the trimmed row in canonical characters. -/
theorem trimRow_redraw (width : Nat) (h : ∀ c ∈ row, isMark c) :
    trimRow (redraw width row) = (trimRow row).map canonical := by
  rw [redraw, trimRow_map_canonical (isMark_padRow h), padRow,
    trimRow_append (padding_isFiller _ _), trimRow_trimRow]

/-- A redrawn row consists of characters that mean something, whatever the row was. -/
theorem isMark_redraw (row : Row) : ∀ c ∈ redraw width row, isMark c := by
  have hall : ∀ c ∈ "#Bb.Pp-".toList, isMark c := List.all_eq_true.mp (by decide)
  intro c hc
  obtain ⟨d, -, rfl⟩ := List.mem_map.mp hc
  exact hall _ (mem_drawn d)

/-! ## Edges -/

/-- **A row is judged by its ends**: by its first and its last character that is no filler.
Stripping fillers and then looking at both ends is looking for these two. -/
theorem isRow_eq (row : Row) :
    isRow row = ((row.find? (!isFiller ·)).any isEdge &&
      (row.reverse.find? (!isFiller ·)).any isEdge) := by
  have hfirst : (trimRow (row.dropWhile isFiller)).head? = row.find? (!isFiller ·) := by
    rw [List.find?_not_eq_head?_dropWhile]
    obtain ⟨fillers, hrow, hfillers⟩ := exists_fillers (row.dropWhile isFiller)
    cases htrim : trimRow (row.dropWhile isFiller) with
    | cons c rest => rw [hrow, htrim, List.cons_append, List.head?_cons, List.head?_cons]
    | nil =>
        rw [htrim, List.nil_append] at hrow
        have hhead := List.head?_dropWhile_not isFiller row
        cases hfill : fillers with
        | nil => rw [hrow, hfill]
        | cons c rest =>
            rw [hrow, hfill, List.head?_cons] at hhead
            simp [hfillers c (hfill ▸ List.mem_cons_self)] at hhead
  -- Only the first and the last character that is no filler matter, and trimming keeps both.
  have hlast : (trimRow (row.dropWhile isFiller)).getLast? = row.reverse.find? (!isFiller ·) := by
    have hsplit : row.reverse =
        (row.dropWhile isFiller).reverse ++ (row.takeWhile isFiller).reverse := by
      rw [← List.reverse_append, List.takeWhile_append_dropWhile]
    have hnone : (row.takeWhile isFiller).reverse.find? (!isFiller ·) = none := by
      rw [List.find?_eq_none]
      intro c hc
      simpa using List.mem_takeWhile_imp (List.mem_reverse.mp hc)
    rw [trimRow, Text.dropEndWhile, List.getLast?_reverse, ← List.find?_not_eq_head?_dropWhile,
      hsplit, List.find?_append, hnone, Option.or_none]
  rw [isRow, Text.stripWhile, ← trimRow, hfirst, hlast]

/-- What is searched for among marks is found at the same place of a redrawn row. -/
theorem find?_canonical (h : ∀ c ∈ row, isMark c) :
    (row.map canonical).find? (!isFiller ·) = (row.find? (!isFiller ·)).map canonical := by
  rw [List.find?_not_eq_head?_dropWhile, List.find?_not_eq_head?_dropWhile, dropWhile_canonical h,
    List.head?_map]

/-- **A redrawn row is a row.** The fillers around it do not matter, and the two characters that do
are found at the same places and still may stand at the ends. -/
theorem isRow_redraw (h : ∀ c ∈ row, isMark c) (hrow : isRow row) : isRow (redraw width row) := by
  have hnone : ∀ fillers : Row, (∀ c ∈ fillers, isFiller c) →
      fillers.find? (!isFiller ·) = none := by
    intro fillers hfillers
    rw [List.find?_eq_none]
    intro c hc
    simpa using hfillers c hc
  obtain ⟨fillers, heq, hfillers⟩ := exists_fillers row
  have hpadding := padding_isFiller width (trimRow row)
  have hmark : ∀ c ∈ padRow width (trimRow row), isMark c := isMark_padRow h
  have hfirst : (padRow width (trimRow row)).find? (!isFiller ·) = row.find? (!isFiller ·) := by
    conv_rhs => rw [heq]
    rw [padRow, List.find?_append, hnone _ hpadding, List.find?_append, hnone _ hfillers]
  have hlast : (padRow width (trimRow row)).reverse.find? (!isFiller ·) =
      row.reverse.find? (!isFiller ·) := by
    conv_rhs => rw [heq]
    rw [padRow, List.reverse_append, List.reverse_append, List.find?_append, List.find?_append,
      hnone _ fun c hc => hpadding c (List.mem_reverse.mp hc),
      hnone _ fun c hc => hfillers c (List.mem_reverse.mp hc)]
  -- The first and the last character that is no filler are where they were, in canonical form.
  rw [isRow_eq, Bool.and_eq_true] at hrow ⊢
  rw [redraw, find?_canonical hmark, ← List.map_reverse,
    find?_canonical fun c hc => hmark c (List.mem_reverse.mp hc), hfirst, hlast]
  obtain ⟨hhead, htail⟩ := hrow
  rw [Option.any_eq_true] at hhead htail
  obtain ⟨c, hc, hedge⟩ := hhead
  obtain ⟨d, hd, hedge'⟩ := htail
  rw [hc, hd]
  exact ⟨isEdge_canonical hedge, isEdge_canonical hedge'⟩

/-! ## The drawing of the level that a block draws -/

/-- Redrawing keeps the number of players.  A character and its canonical one both put the player on
the cell or neither does, and the fillers that are dropped put none. -/
theorem playerCount_redraw (width : Nat) (h : ∀ row ∈ rows, ∀ c ∈ row, isMark c) :
    playerCount (rows.map (redraw width)) = playerCount rows := by
  have hrow : ∀ row ∈ rows, (redraw width row).countP isPlayer = row.countP isPlayer := by
    intro row hrow
    rw [← countP_trimRow (redraw width row), trimRow_redraw width (h row hrow), List.countP_map,
      ← countP_trimRow row]
    refine List.countP_congr fun c hc => ?_
    obtain ⟨fillers, heq, -⟩ := exists_fillers row
    have hmark : isMark c := h row hrow c (heq ▸ List.mem_append_left _ hc)
    rw [Function.comp_apply, (sameKind_canonical hmark).player]
  simp only [playerCount, List.countP_flatten, List.map_map]
  exact congrArg List.sum (List.map_congr_left hrow)

/-- The character at a place becomes the canonical one, also where the row has ended and there is
floor. -/
theorem markAt_map_canonical (rows : List Row) (x y : Nat) :
    markAt (rows.map (·.map canonical)) x y = canonical (markAt rows x y) := by
  have hfloor : canonical '-' = '-' := by decide
  simp only [markAt, List.getElem?_map]
  cases rows[y]? with
  | none => simp [hfloor]
  | some row =>
      simp only [Option.map_some, Option.getD_some, List.getElem?_map]
      cases row[x]? with
      | none => simp [hfloor]
      | some c => simp

/-- Where there is nothing in a block, there is floor.  A cell beyond the end of its row is no
exception. -/
theorem isMark_markAt (h : ∀ row ∈ rows, ∀ c ∈ row, isMark c) : isMark (markAt rows x y) := by
  have hfloor : isMark '-' := by decide
  unfold markAt
  cases hrow : rows[y]? with
  | none => simpa using hfloor
  | some row =>
      rw [Option.getD_some]
      cases hc : row[x]? with
      | none => exact hfloor
      | some c => exact h row (List.mem_of_getElem? hrow) c (List.mem_of_getElem? hc)

/-- The trimmed rows of a redrawn block are the trimmed rows in canonical characters.  So the widths
agree. -/
theorem map_trimRow_redraw (width : Nat) (h : ∀ row ∈ rows, ∀ c ∈ row, isMark c) :
    (rows.map (redraw width)).map trimRow = (rows.map trimRow).map (·.map canonical) := by
  rw [List.map_map, List.map_map]
  exact List.map_congr_left fun row hrow => trimRow_redraw width (h row hrow)

/-- Redrawing makes nothing else of a cell. -/
theorem sameKind_markAt_redraw (width : Nat) (h : ∀ row ∈ rows, ∀ c ∈ row, isMark c) (x y : Nat) :
    SameKind (markAt (rows.map (redraw width)) x y) (markAt rows x y) := by
  have htrimmed := sameKind_markAt_trim (rows.map (redraw width)) x y
  rw [map_trimRow_redraw width h, markAt_map_canonical] at htrimmed
  have hmark : isMark (markAt (rows.map trimRow) x y) := by
    refine isMark_markAt fun row hrow c hc => ?_
    obtain ⟨long, hlong, rfl⟩ := List.mem_map.mp hrow
    obtain ⟨fillers, heq, -⟩ := exists_fillers long
    exact h long hlong c (heq ▸ List.mem_append_left _ hc)
  exact htrimmed.symm.trans ((sameKind_canonical hmark).trans (sameKind_markAt_trim rows x y))

/-- A cell has one column and one row. -/
theorem coordinates_unique {x' y' columns : Nat} (hx : x < columns) (hx' : x' < columns)
    (h : y * columns + x = y' * columns + x') : x = x' ∧ y = y' := by
  have hmod := congrArg (· % columns) h
  have hdiv := congrArg (· / columns) h
  have hpos : 0 < columns := by omega
  simp only [Nat.mul_add_mod_self_right, Nat.mod_eq_of_lt hx, Nat.mod_eq_of_lt hx'] at hmod
  simp only [Nat.mul_comm _ columns, Nat.mul_add_div hpos, Nat.div_eq_of_lt hx,
    Nat.div_eq_of_lt hx', Nat.add_zero] at hdiv
  exact ⟨hmod, hdiv⟩

/-- Coordinates within a level are a cell of it. -/
theorem cell_lt (hx : x < l.columns) (hy : y < l.rows) : y * l.columns + x < l.size := by
  have hle : (y + 1) * l.columns ≤ l.rows * l.columns := Nat.mul_le_mul_right _ hy
  rw [Nat.succ_mul] at hle
  exact Nat.lt_of_lt_of_le (Nat.add_lt_add_left hx _) hle

namespace Draws

variable (hdraws : Draws rows l) (hone : playerCount rows = 1)

include hdraws

/-- **The goals of a drawn level** lie on its board, as the characters for them do.  Levels that are
made by hand may have goals elsewhere, and those that are read may not. -/
theorem goal_lt : ∀ goal ∈ l.goals, goal < l.size := by
  intro goal hgoal
  obtain ⟨x, hx, y, hy, -, rfl⟩ := (hdraws.goals goal).mp hgoal
  exact cell_lt hx hy

/-- A cell is a goal if the character at its place says so. -/
theorem contains_goal (hx : x < l.columns) (hy : y < l.rows) :
    l.goals.contains (y * l.columns + x) = isGoal (markAt rows x y) := by
  rw [Bool.eq_iff_iff, List.contains_iff_mem, hdraws.goals]
  constructor
  · intro h
    obtain ⟨x', hx', y', -, hgoal, heq⟩ := h
    obtain ⟨rfl, rfl⟩ := coordinates_unique hx hx' heq
    exact hgoal
  · intro h
    exact ⟨x, hx, y, hy, h, rfl⟩

include hone

/-- A cell is the player's if the character at its place says so. -/
theorem eq_player_iff (hx : x < l.columns) (hy : y < l.rows) :
    y * l.columns + x = l.player ↔ isPlayer (markAt rows x y) := by
  constructor
  · intro h
    obtain ⟨x', hx', y', hy', hplayer, heq⟩ := hdraws.player
    obtain ⟨rfl, rfl⟩ := coordinates_unique hx hx' (h.trans heq)
    exact hplayer
  · exact hdraws.eq_player hone hx hy

/-- **The drawing of a cell** is the canonical character of what the block has there, since both are
told by the tile, the player and the goal. -/
theorem mark_eq (hx : x < l.columns) (hy : y < l.rows) :
    l.mark (y * l.columns + x) = canonical (markAt rows x y) := by
  unfold Level.mark canonical
  rw [hdraws.tile_eq x hx y hy, hdraws.contains_goal hx hy]
  simp only [hdraws.eq_player_iff hone hx hy]
  cases tile (markAt rows x y) <;> rfl

/-- **The drawing has the redrawn rows** of the block, cell by cell.  What is redrawn is of the same
kind, and the drawing of a cell depends on its kind only. -/
theorem drawnRows_eq : l.drawnRows = rows.map (redraw l.columns) := by
  unfold Level.drawnRows
  refine List.ext_getElem (by simp [hdraws.rows_eq]) fun y hy hy' => ?_
  rw [List.length_map] at hy'
  rw [List.getElem_map, List.getElem_map, List.getElem_range]
  have hshort := hdraws.columns_le rows[y] (List.getElem_mem hy')
  unfold Level.drawRow redraw
  refine List.ext_getElem (by simp [length_padRow hshort]) fun x hx hx' => ?_
  have hcolumn : x < l.columns := by simpa using hx
  have hpadded : x < (padRow l.columns (trimRow rows[y])).length := by simpa using hx'
  have hpad : (padRow l.columns (trimRow rows[y]))[x] = markAt (rows.map trimRow) x y := by
    rw [← Option.some_inj, ← List.getElem?_eq_getElem, getElem?_padRow hcolumn, markAt,
      List.getElem?_map, List.getElem?_eq_getElem hy', Option.map_some, Option.getD_some]
  rw [List.getElem_map, List.getElem_map, List.getElem_range, hpad,
    hdraws.mark_eq hone hcolumn (hdraws.rows_eq ▸ hy'),
    (sameKind_markAt_trim rows x y).canonical_eq]

variable (hrows : BoardRows rows)

include hone hrows

/-- **The drawing consists of rows** that may stand on a board, being redrawn ones.  They begin and
end with an edge, because the rows that were read did. -/
theorem boardRows_drawn : BoardRows l.drawnRows := by
  rw [hdraws.drawnRows_eq hone]
  refine ⟨by simpa using hrows.ne_nil, fun row hrow => ?_, fun row hrow => ?_⟩
  · obtain ⟨old, hold, rfl⟩ := List.mem_map.mp hrow
    exact isRow_redraw (hrows.isMark old hold) (hrows.isRow old hold)
  · obtain ⟨old, hold, rfl⟩ := List.mem_map.mp hrow
    exact isMark_redraw old

/-- **The drawing draws the level** that it is the drawing of.  It has one player, so it makes some
level; and as its characters are of the same kinds as those of the block, it is this one. -/
theorem levelOfRows_drawn : levelOfRows l.drawnRows = .ok l := by
  have hmark := (hdraws.boardRows_drawn hone hrows).isMark
  have hcount : playerCount l.drawnRows = 1 := by
    rw [hdraws.drawnRows_eq hone, playerCount_redraw _ hrows.isMark, hone]
  obtain ⟨m, hlevel, hm⟩ := exists_levelOfRows hmark hcount
  rw [hdraws.drawnRows_eq hone] at hlevel hm ⊢
  have hlength : ∀ row ∈ rows, (trimRow (redraw l.columns row)).length = (trimRow row).length := by
    intro row hrow
    rw [trimRow_redraw _ (hrows.isMark row hrow), List.length_map]
  have hcolumns : m.columns = l.columns := by
    apply le_antisymm
    · obtain ⟨row, hrow, hlong⟩ := hm.exists_columns
      obtain ⟨old, hold, rfl⟩ := List.mem_map.mp hrow
      exact hlong ▸ hlength old hold ▸ hdraws.columns_le old hold
    · obtain ⟨row, hrow, hlong⟩ := hdraws.exists_columns
      exact hlong ▸ hlength row hrow ▸ hm.columns_le _ (List.mem_map_of_mem hrow)
  rw [hlevel, hdraws.unique hm hone (List.length_map ..) hcolumns
    (sameKind_markAt_redraw l.columns hrows.isMark)]

end Draws

end Sokoban.Document
