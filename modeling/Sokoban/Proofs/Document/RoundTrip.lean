import Sokoban.Proofs.Document.Parsing
import Sokoban.Proofs.Document.Redrawing
import Sokoban.Proofs.Generation
import Sokoban.Proofs.Prism.Header
import Sokoban.Rendering

/-! # Drawings are documents

A level that has been read from a document can be drawn and read again.  The lines of its drawing
are rows that no comment, count or bracket disturbs (`IsDrawn`), so each is read as the row it is;
what `Reads` says of lines is put together along the document (`Reads.drawing`, `Reads.blank`).

The same drawing is the comment at the head of a model, without the last line feed.

Only levels that have been read are spoken of (`Parsed`).  A level that is put together in another
way may have no walls around it, and then the lines of its drawing are no rows; it may also have
goals that no drawing shows.  For a level from a document there is a block of rows that draws it,
and its drawing is that block redrawn.
-/

namespace Sokoban.Document

/-- A level that is among the levels of a document. -/
def Parsed (l : Level) : Prop :=
  ∃ text ls, parse text = .ok ls ∧ l ∈ ls

/-- A document that consists of the drawings of levels, with blank lines between them. -/
inductive Written : List Level → List Char → Prop
  | last (l : Level) : Written [l] l.draw
  | next {ls : List Level} {text : List Char} (l : Level) (gap : List (List Char)) (hgap : gap ≠ [])
      (hblank : ∀ line ∈ gap, '\n' ∉ line ∧ line.all Text.isBlank) (hrest : Written ls text) :
      Written (l :: ls) (l.draw ++ gap.flatMap (· ++ ['\n']) ++ text)

/-- A row that is read from a line as it stands there. -/
structure IsDrawn (row : Row) : Prop where
  isRow : isRow row
  mem : ∀ c ∈ row, c ∈ "#Bb.Pp-".toList

/-- Lines that hold certain blocks, and none of which is left out or refused. -/
structure Reads (lines : List (List Char)) (bs : List (List Row)) : Prop where
  kept : ∀ line ∈ lines, isComment line = false
  decoded : ∀ line ∈ lines, ∀ number, refusal? (line, number) = none
  blocks_eq : (runs (lines.map boardRows?)).filter (!·.isEmpty) = bs

variable {l : Level} {ls : List Level} {row : Row} {rows : List Row} {lines : List (List Char)}
  {bs : List (List Row)} {line text : List Char}

/-! ## Levels that have been read -/

/-- A level that has been read is drawn by a block with one player. -/
theorem Parsed.exists_draws (h : Parsed l) :
    ∃ rows, BoardRows rows ∧ playerCount rows = 1 ∧ Draws rows l := by
  obtain ⟨text, ls, hparse, hl⟩ := h
  obtain ⟨hquiet, rfl, -⟩ := parse_eq_ok_iff.mp hparse
  obtain ⟨rows, hrows, hdraws⟩ := exists_of_forall₂ (read_of_no_refusal hquiet).1 hl
  obtain ⟨hblock, hone⟩ := List.mem_filter.mp hrows
  exact ⟨rows, .of_mem_blocks hblock, by simpa using hone, hdraws⟩

/-- The goals of a level that has been read lie on its board. -/
theorem Parsed.goal_lt (h : Parsed l) : ∀ goal ∈ l.goals, goal < l.size := by
  obtain ⟨rows, -, -, hdraws⟩ := h.exists_draws
  exact hdraws.goal_lt

/-- The rows of the drawing of such a level make the level. -/
theorem Parsed.levelOfRows_drawn (h : Parsed l) : levelOfRows l.drawnRows = .ok l := by
  obtain ⟨rows, hrows, hone, hdraws⟩ := h.exists_draws
  exact hdraws.levelOfRows_drawn hone hrows

/-- The rows of the drawing of such a level are read as they stand. -/
theorem Parsed.isDrawn (h : Parsed l) (hrow : row ∈ l.drawnRows) : IsDrawn row := by
  obtain ⟨rows, hrows, hone, hdraws⟩ := h.exists_draws
  exact ⟨(hdraws.boardRows_drawn hone hrows).isRow row hrow, Level.mem_drawnRows hrow⟩

/-! ## Lines of a drawing -/

namespace IsDrawn

variable (h : IsDrawn row)

include h

/-- The characters of a drawing mean something in a row. -/
theorem isMark : ∀ c ∈ row, isMark c := by
  have halphabet : ∀ c ∈ "#Bb.Pp-".toList, Document.isMark c := List.all_eq_true.mp (by decide)
  exact fun c hc => halphabet c (h.mem c hc)

/-- A line of a drawing is no comment. -/
theorem isComment : isComment row = false :=
  isComment_of_isBoardChar fun c hc => isBoardChar_of_isMark (h.isMark c hc)

/-- A line of a drawing is decoded to itself, so nothing about it is refused. -/
theorem refusal?_eq_none (number : Nat) : refusal? (row, number) = none :=
  refusal?_of_literals (fun c hc => isLiteral_of_isMark (h.isMark c hc)) number

/-- **A line of a drawing** holds the row it shows.  There is one row on it, so joining the lines
gives back the block. -/
theorem boardRows?_eq : boardRows? row = some [row] :=
  boardRows?_of_isRow h.isRow h.isMark

end IsDrawn

/-! ## Lines of a document -/

/-- A blank line holds nothing: it has no edge, and what is no board text has no rows. -/
theorem boardRows?_of_blank (h : line.all Text.isBlank) : boardRows? line = none := by
  rw [boardRows?, rowsOfLine?, isBoardText, h]
  rfl

namespace Reads

/-- The drawing of a level is a block of its own. -/
theorem drawing (h : ∀ row ∈ rows, IsDrawn row) (hne : rows ≠ []) : Reads rows [rows] := by
  refine ⟨fun row hrow => (h row hrow).isComment,
    fun row hrow number => (h row hrow).refusal?_eq_none number, ?_⟩
  have hruns := runs_append (fun row hrow => (h row hrow).boardRows?_eq) []
  rw [List.append_nil, runs_nil, List.modifyHead_cons, List.append_nil] at hruns
  rw [hruns]
  simp [hne]

/-- Blank lines may stand before everything.  They are no comments and call for no refusal, and each
of them ends a run that has no rows yet. -/
theorem blank (h : Reads lines bs) {gap : List (List Char)}
    (hgap : ∀ line ∈ gap, line.all Text.isBlank) : Reads (gap ++ lines) bs := by
  induction gap with
  | nil => exact h
  | cons line gap ih =>
      have hrest := ih fun l hl => hgap l (List.mem_cons_of_mem line hl)
      have hblank := hgap line List.mem_cons_self
      refine ⟨List.forall_mem_cons.mpr ⟨?_, hrest.kept⟩,
        List.forall_mem_cons.mpr ⟨fun number => ?_, hrest.decoded⟩, ?_⟩
      · rw [isComment, List.dropWhile_eq_nil_iff.mpr (List.all_eq_true.mp hblank)]
        rfl
      · rw [refusal?, isBoardText, hblank]
        rfl
      · rw [List.cons_append, List.map_cons, boardRows?_of_blank hblank, runs_none]
        exact hrest.blocks_eq

/-- A drawing is a block of its own in front of a blank line.  What follows that line is read as it
would be by itself. -/
theorem cons (h : Reads lines bs) (hrows : ∀ row ∈ rows, IsDrawn row) (hne : rows ≠ [])
    (hblank : line.all Text.isBlank) : Reads (rows ++ line :: lines) (rows :: bs) := by
  have hgap : ∀ l ∈ [line], l.all Text.isBlank := by simpa using hblank
  have hrest : Reads (line :: lines) bs := h.blank hgap
  have hdrawing := drawing hrows hne
  refine ⟨List.forall_mem_append.mpr ⟨hdrawing.kept, hrest.kept⟩,
    List.forall_mem_append.mpr ⟨hdrawing.decoded, hrest.decoded⟩, ?_⟩
  have hblocks := h.blocks_eq
  rw [List.map_append, runs_append fun row hrow => (hrows row hrow).boardRows?_eq, List.map_cons,
    boardRows?_of_blank hblank, runs_none, List.modifyHead_cons, List.append_nil]
  simp [hne, hblocks]

/-- **A document** gives the levels that its blocks draw.  As no line of a drawing is refused and
each drawing has one player, there is a level for each block and no warning. -/
theorem parse_eq (h : Reads (Text.lines text) bs) (hlevels : bs.map levelOfRows = ls.map .ok)
    (hne : ls ≠ []) : parse text = .ok ls := by
  have hkept : (Text.lines text).filter (!isComment ·) = Text.lines text :=
    List.filter_eq_self.mpr fun line hline => by simp [h.kept line hline]
  have hquiet : (contentLines text).findSome? refusal? = none := by
    rw [findSome?_refusal?_eq_none_iff, hkept]
    exact fun line hline => h.decoded line hline 0
  have hdrawn : drawnLevels text = ls := by
    rw [drawnLevels, Document.blocks_eq, hkept, h.blocks_eq, hlevels, levels, List.filterMap_map]
    exact List.filterMap_some
  exact parse_eq_ok_iff.mpr ⟨hquiet, hdrawn, hne⟩

end Reads

/-! ## Drawings and documents -/

/-- **The lines of a written document** hold the drawings of its levels.  The induction goes along
the document; each drawing is followed by a blank line, or by nothing. -/
theorem Written.reads (h : Written ls text) (hparsed : ∀ l ∈ ls, Parsed l) :
    Reads (Text.lines text) (ls.map Level.drawnRows) := by
  induction h with
  | last l =>
      have hl := hparsed l List.mem_cons_self
      have hlines := Text.lines_flatMap_append_of_isLine l.isLine_drawnRows []
      rw [List.append_nil, Text.lines_nil, List.append_nil, ← l.draw_eq] at hlines
      rw [hlines]
      exact .drawing (fun row hrow => hl.isDrawn hrow) l.drawnRows_ne_nil
  | @next ls text l gap hgap hblank hrest ih =>
      have hl := hparsed l List.mem_cons_self
      have hlater := ih fun m hm => hparsed m (List.mem_cons_of_mem l hm)
      have hdropped : ∀ line ∈ gap.map Text.dropReturn, line.all Text.isBlank := by
        intro line hline
        obtain ⟨long, hlong, rfl⟩ := List.mem_map.mp hline
        have hall := List.all_eq_true.mp (hblank long hlong).2
        exact List.all_eq_true.mpr fun c hc => hall c ((Text.dropReturn_sublist long).subset hc)
      have hlines : Text.lines (l.draw ++ gap.flatMap (· ++ ['\n']) ++ text) =
          l.drawnRows ++ (gap.map Text.dropReturn ++ Text.lines text) := by
        rw [l.draw_eq, List.append_assoc, Text.lines_flatMap_append_of_isLine l.isLine_drawnRows,
          Text.lines_flatMap_append fun line hline => (hblank line hline).1]
      -- The first blank line ends the block of the drawing, and the others stand before what
      -- follows.
      obtain ⟨first, others, rfl⟩ := List.exists_cons_of_ne_nil hgap
      rw [hlines, List.map_cons, List.map_cons, List.cons_append]
      rw [List.map_cons, List.forall_mem_cons] at hdropped
      exact (hlater.blank hdropped.2).cons (fun row hrow => hl.isDrawn hrow) l.drawnRows_ne_nil
        hdropped.1

/-- **A written document** gives the levels that it was written from.  None of its lines is refused,
and its blocks are the drawings, each with one player. -/
theorem Written.parse_eq (h : Written ls text) (hparsed : ∀ l ∈ ls, Parsed l) :
    parse text = .ok ls := by
  refine (h.reads hparsed).parse_eq ?_ ?_
  · rw [List.map_map]
    exact List.map_congr_left fun l hl => (hparsed l hl).levelOfRows_drawn
  · cases h <;> exact List.cons_ne_nil _ _

/-- **The comment of a model** is read as its level.  It is the drawing without the last line feed,
and a document may end without one. -/
theorem Parsed.parse_headerOf {m : Model} (h : Parsed l) (hm : m.comment? = some (Model.drawing l)) :
    parse (Prism.headerOf (Prism.render m).toList) = .ok [l] := by
  have hheader := Prism.headerOf_render hm l.toList_drawing l.isLine_drawnRows l.getLast?_drawnRows_ne
    l.drawnRows_ne_nil
  have hreads : Reads (Text.lines (Model.drawing l).toList) [l.drawnRows] := by
    rw [l.toList_drawing, Text.lines_intercalate l.isLine_drawnRows l.getLast?_drawnRows_ne]
    exact .drawing (fun row hrow => h.isDrawn hrow) l.drawnRows_ne_nil
  rw [hheader]
  exact hreads.parse_eq (by rw [List.map_singleton, h.levelOfRows_drawn]; rfl)
    (List.cons_ne_nil l [])

/-- **Drawings are read again.**  A document that consists of the drawings of levels, each of which
has been read from some document, gives just these levels.  The drawing of each of them is a
document for it alone; and so is the comment at the head of its model, in every accepted mode. -/
theorem parse_written (hwritten : Written ls text) (hparsed : ∀ l ∈ ls, Parsed l) :
    parse text = .ok ls ∧ ∀ l ∈ ls, parse l.draw = .ok [l] ∧
      ∀ c : Configuration, c.mode.Accepted → ∃ g, generate l { c with format := .prism } = .ok g ∧
        parse (Prism.headerOf g.text.toList) = .ok [l] := by
  refine ⟨hwritten.parse_eq hparsed, fun l hl => ⟨?_, fun c hmode => ?_⟩⟩
  · exact (Written.last l).parse_eq (by simpa using hparsed l hl)
  · obtain ⟨m, hm⟩ := Model.exists_ofLevel (c := { c with format := .prism })
      (hparsed l hl).goal_lt hmode
    refine ⟨⟨m, Prism.render m⟩, by rw [generate, hm]; rfl, ?_⟩
    obtain ⟨commands, -, rfl⟩ := Model.ofLevel_parts hm
    exact (hparsed l hl).parse_headerOf rfl

/-- A chamber with the player, a box and a goal in a row. -/
def chamber : Level where
  board := ⟨3, 5, #[.wall, .wall, .wall, .wall, .wall, .wall, .floor, .box, .floor, .wall,
    .wall, .wall, .wall, .wall, .wall]⟩
  player := 6
  goals := [8]
  reachable := Board.region ⟨3, 5, #[.wall, .wall, .wall, .wall, .wall, .wall, .floor, .box, .floor,
    .wall, .wall, .wall, .wall, .wall, .wall]⟩ 6
  tiles_size := rfl
  player_floor := rfl
  goals_ascending := by decide
  reachable_eq := rfl

/-- The chamber twice, after it has been read from a document with prose and run lengths. -/
theorem parse_written_chamber :
    parse "A chamber\n5#|#@$.#\n5#\n".toList = .ok [chamber] ∧
      parse (chamber.draw ++ "\n".toList ++ chamber.draw) = .ok [chamber, chamber] ∧
      ∃ g, generate chamber { mode := .fixed .rightOrDrift, format := .prism } = .ok g ∧
        parse (Prism.headerOf g.text.toList) = .ok [chamber] := by
  have hread : parse "A chamber\n5#|#@$.#\n5#\n".toList = .ok [chamber] := by decide +kernel
  have hparsed : ∀ l ∈ [chamber, chamber], Parsed l := by
    intro l hl
    obtain rfl : l = chamber := by simpa using hl
    exact ⟨_, _, hread, List.mem_singleton_self _⟩
  have hwritten : Written [chamber, chamber] (chamber.draw ++ "\n".toList ++ chamber.draw) :=
    .next chamber [[]] (by decide) (by decide) (.last chamber)
  obtain ⟨hparse, hall⟩ := parse_written hwritten hparsed
  obtain ⟨-, hcomment⟩ := hall chamber List.mem_cons_self
  exact ⟨hread, hparse, hcomment { mode := .fixed .rightOrDrift }
    ProbabilityMap.accepted_rightOrDrift⟩

end Sokoban.Document
