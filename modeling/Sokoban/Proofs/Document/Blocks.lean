import Mathlib.Data.List.ReduceOption
import Sokoban.Proofs.Document.Rows
import Sokoban.Proofs.RunLength
import Sokoban.Proofs.Text

/-! # The blocks of a document

The reader keeps one block open and completes it at the next line without rows, or at the end.  Told
without that state: the lines that hold no rows cut the document into runs, and the runs that hold
rows are its blocks (`fst_collect`, `blocks_eq`).  Since a decoded line consists of literals of the
line, every row is made of characters that mean something (`BoardRows.of_boardRows?`).  The number
of a line is told when the line is refused and matters nowhere else (`refusal?_below`).

So there are two questions about a document, and they are answered apart.  Whether it is refused
depends on its lines one by one: the first that calls for a refusal is the one that is reported
(`snd_collect`).  Which blocks it has depends on where lines without rows stand (`runs`), and on
nothing else about these lines.  All later files about documents, on insertion, concatenation,
decoding and drawing, compare the runs of two lists of lines and the first refusals in them.
-/

namespace Sokoban.Document

/-- The refusal that a numbered line calls for: it is written in board characters and cannot be
decoded. -/
def refusal? : List Char × Nat → Option Fault
  | (line, number) =>
    if isBoardText line then
      match RunLength.decode line with
      | .ok _ => none
      | .error cause => some (.encoding number cause)
    else
      none

/-- A refusal whose line stands `lines` further down. -/
def Fault.below (lines : Nat) : Fault → Fault
  | .encoding line cause => .encoding (line + lines) cause
  | .noLevels => .noLevels

/-- The rows that a line holds; none if it cannot be decoded. -/
def boardRows? (line : List Char) : Option (List Row) :=
  (rowsOfLine? line).toOption.join

/-- The rows between lines that hold none, run by run. -/
def runs (lines : List (Option (List Row))) : List (List Row) :=
  (lines.splitOnP Option.isNone).map fun run => run.reduceOption.flatten

/-- The blocks of a document: the rows of each longest run of lines with rows, comments left out. -/
def blocks (text : List Char) : List (List Row) :=
  (runs ((contentLines text).map (boardRows? ·.1))).filter (!·.isEmpty)

/-- Rows that may stand on a board, one at least. -/
structure BoardRows (rows : List Row) : Prop where
  ne_nil : rows ≠ []
  isRow : ∀ row ∈ rows, isRow row
  isMark : ∀ row ∈ rows, ∀ c ∈ row, isMark c

variable {b : Blocks} {line decoded : List Char} {rows block : List Row} {row : Row} {number : Nat}
  {lines : List (Option (List Row))} {numbered : List (List Char × Nat)} {fault : Fault} {c : Char}

/-! ## Characters -/

/-- The characters that put something solid on a cell. -/
theorem tile_ne_floor_iff : tile c ≠ .floor ↔ c = '#' ∨ c = '$' ∨ c = 'b' ∨ c = '*' ∨ c = 'B' := by
  grind [tile]

/-- The characters that may stand in a row: those for the player, boxes, goals and walls, and the
fillers. -/
theorem isMark_iff : isMark c ↔ c ∈ " -_@p+P.*B#$b".toList := by
  constructor
  · intro h
    simp only [isMark, isFiller, isPlayer, isGoal, Bool.or_eq_true, beq_iff_eq, bne_iff_ne,
      tile_ne_floor_iff, or_assoc] at h
    rcases h with rfl | rfl | rfl | rfl | rfl | rfl | rfl | rfl | rfl | rfl | rfl | rfl | rfl | rfl |
      rfl | rfl | rfl <;> decide
  · exact fun h => List.all_eq_true.mp (by decide : " -_@p+P.*B#$b".toList.all isMark) c h

/-- A character that boards are written with means something in a row, unless it is part of a count,
a bracket or a bar between rows. -/
theorem isMark_of_isBoardChar (h : isBoardChar c) (hliteral : RunLength.isLiteral c)
    (hbar : c ≠ '|') : isMark c := by
  have halphabet : "#@p+P$b*B.()|".toList.all fun c => isMark c || c == '(' || c == ')' || c == '|' :=
    by decide
  simp only [RunLength.isLiteral, Bool.and_eq_true, bne_iff_ne, Option.isNone_iff_eq_none]
    at hliteral
  obtain ⟨⟨hopen, hclose⟩, hdigit⟩ := hliteral
  simp only [isBoardChar, hdigit, Option.isSome_none, Bool.or_false, Bool.or_eq_true,
    List.contains_iff_mem] at h
  rcases h with hboard | hfiller
  · simpa [hopen, hclose, hbar] using List.all_eq_true.mp halphabet c hboard
  · simp [isMark, hfiller]

/-- What means something in a row may stand on a line of a board. -/
theorem isBoardChar_of_isMark (h : isMark c) : isBoardChar c :=
  List.all_eq_true.mp (by decide : " -_@p+P.*B#$b".toList.all isBoardChar) c (isMark_iff.mp h)

/-- What means something in a row stands for itself when a line is decoded. -/
theorem isLiteral_of_isMark (h : isMark c) : RunLength.isLiteral c :=
  List.all_eq_true.mp (by decide : " -_@p+P.*B#$b".toList.all RunLength.isLiteral) c
    (isMark_iff.mp h)

/-- **Board characters** make no comment.  A colon is none of them, and a comment has two of them
behind its blanks. -/
theorem isComment_of_isBoardChar (h : ∀ c ∈ line, isBoardChar c) : isComment line = false := by
  by_contra hcomment
  rw [Bool.not_eq_false, isComment, List.isPrefixOf_iff_prefix] at hcomment
  have hcolon : ':' ∈ line :=
    (List.dropWhile_sublist Text.isBlank).subset (hcomment.subset List.mem_cons_self)
  have hboard := h ':' hcolon
  contradiction

/-- A line of board characters has no ending of its own, so it can be written into a document and be
read again. -/
theorem isLine_of_isBoardChar (h : ∀ c ∈ line, isBoardChar c) : Text.IsLine line := by
  refine ⟨fun hfeed => ?_, fun hreturn => ?_⟩
  · have hboard := h _ hfeed
    contradiction
  · have hboard := h _ (List.mem_of_getLast? hreturn)
    contradiction

/-- **Walls and boxes on goals are seen**: a line of board characters with one of these is taken for
board text, and is decoded. -/
theorem isBoardText_of_isEdge (h : ∀ c ∈ line, isBoardChar c) (hc : c ∈ line) (hedge : isEdge c) :
    isBoardText line := by
  have hblank : Text.isBlank c = false := by
    simp only [isEdge, Bool.or_eq_true, beq_iff_eq] at hedge
    rcases hedge with (rfl | rfl) | rfl <;> decide
  rw [isBoardText, List.all_eq_true.mpr h, List.all_eq_false.mpr ⟨c, hc, by simp [hblank]⟩]
  rfl

/-! ## Lines with rows -/

/-- A row has an edge. -/
theorem exists_isEdge (h : isRow row) : ∃ c ∈ row, isEdge c := by
  rw [isRow, Bool.and_eq_true, Option.any_eq_true] at h
  obtain ⟨⟨c, hhead, hedge⟩, -⟩ := h
  have hinner : c ∈ Text.stripWhile isFiller row := List.mem_of_mem_head? hhead
  have hreverse : c ∈ (row.dropWhile isFiller).reverse :=
    (List.dropWhile_sublist isFiller).subset (List.mem_reverse.mp hinner)
  exact ⟨c, (List.dropWhile_sublist isFiller).subset (List.mem_reverse.mp hreverse), hedge⟩

/-- A line holds at least one row, be it an empty one.  A bar at its end makes no further row, but
one in front does. -/
theorem splitRows_ne_nil (decoded : List Char) : splitRows decoded ≠ [] := by
  rw [splitRows]
  split
  next h =>
    intro hnil
    have hlength := congrArg List.length hnil
    rw [List.length_dropLast, List.length_nil] at hlength
    omega
  next => exact List.splitOn_ne_nil '|' decoded

/-- The rows of a line are pieces of what it stands for. -/
theorem mem_splitOn_of_mem_splitRows (h : row ∈ splitRows decoded) : row ∈ decoded.splitOn '|' := by
  rw [splitRows] at h
  split at h
  next => exact List.dropLast_subset _ h
  next => exact h

/-- Where all pieces of a line are rows, there is an edge on it. -/
theorem exists_isEdge_of_rows (h : ∀ row ∈ splitRows decoded, isRow row) :
    ∃ c ∈ decoded, isEdge c := by
  obtain ⟨row, hrow⟩ := List.exists_mem_of_ne_nil _ (splitRows_ne_nil decoded)
  obtain ⟨c, hc, hedge⟩ := exists_isEdge (h row hrow)
  exact ⟨c, (Text.mem_of_mem_splitOnP (mem_splitOn_of_mem_splitRows hrow) hc).1, hedge⟩

/-- **A line holds rows** if it is board text that can be decoded to something, and if every piece
between bars is a row. -/
theorem boardRows?_eq_some_iff :
    boardRows? line = some rows ↔ ∃ decoded, isBoardText line ∧ RunLength.decode line = .ok decoded ∧
      decoded ≠ [] ∧ (∀ row ∈ rows, isRow row) ∧ splitRows decoded = rows := by
  unfold boardRows? rowsOfLine?
  by_cases hboard : isBoardText line
  · cases hdecode : RunLength.decode line with
    | error cause => simp [hboard, Except.map, Except.toOption]
    | ok decoded =>
        simp only [hboard, if_true, Except.map, Except.toOption, Option.join_some, true_and,
          Except.ok.injEq, exists_eq_left', Option.ite_none_right_eq_some, Bool.and_eq_true,
          Bool.not_eq_true', List.isEmpty_eq_false_iff, List.all_eq_true, Option.some.injEq]
        constructor
        · intro h
          obtain ⟨⟨hne, hrows⟩, rfl⟩ := h
          exact ⟨hne, hrows, rfl⟩
        · intro h
          obtain ⟨hne, hrows, rfl⟩ := h
          exact ⟨⟨hne, hrows⟩, rfl⟩
  · simp [hboard, Except.toOption]

/-- **The rows of a line** may stand on a board.  Their characters are literals of the line, and of
the characters of a board the literals are those that mean something. -/
theorem BoardRows.of_boardRows? (h : boardRows? line = some rows) : BoardRows rows := by
  obtain ⟨decoded, hboard, hdecode, -, hrows, rfl⟩ := boardRows?_eq_some_iff.mp h
  refine ⟨splitRows_ne_nil decoded, hrows, fun row hrow c hc => ?_⟩
  obtain ⟨hdecoded, hbar⟩ := Text.mem_of_mem_splitOnP (mem_splitOn_of_mem_splitRows hrow) hc
  obtain ⟨hline, hliteral⟩ := RunLength.mem_of_decode hdecode hdecoded
  have hall : line.all isBoardChar := by
    simp only [isBoardText, Bool.and_eq_true] at hboard
    exact hboard.2
  exact isMark_of_isBoardChar (List.all_eq_true.mp hall c hline) hliteral (by simpa using hbar)

/-- **A row alone on a line** is read as it stands there.  Its characters stand for themselves, one
of them is an edge, and no bar splits it. -/
theorem boardRows?_of_isRow (hrow : isRow row) (hmark : ∀ c ∈ row, isMark c) :
    boardRows? row = some [row] := by
  obtain ⟨c, hc, hedge⟩ := exists_isEdge hrow
  have hboard := isBoardText_of_isEdge (fun d hd => isBoardChar_of_isMark (hmark d hd)) hc hedge
  have hdecode := RunLength.decode_literals fun d hd => isLiteral_of_isMark (hmark d hd)
  have hbar : '|' ∉ row := by
    intro hmem
    have hmark := hmark _ hmem
    contradiction
  refine boardRows?_eq_some_iff.mpr ⟨row, hboard, hdecode, List.ne_nil_of_mem hc, ?_, ?_⟩
  · simpa using hrow
  · rw [splitRows, List.splitOn_eq_singleton hbar]
    rfl

/-! ## Runs -/

/-- Without lines there is one run, with nothing in it. -/
theorem runs_nil : runs [] = [[]] :=
  rfl

/-- A line without rows opens a new run. -/
theorem runs_none (lines : List (Option (List Row))) : runs (none :: lines) = [] :: runs lines := by
  simp [runs, List.splitOnP_cons_eq_if_modifyHead]

/-- A line with rows puts them in front of the run that it stands in. -/
theorem runs_some (rows : List Row) (lines : List (Option (List Row))) :
    runs (some rows :: lines) = (runs lines).modifyHead (rows ++ ·) := by
  obtain ⟨first, later, hpieces⟩ :=
    List.exists_cons_of_ne_nil (List.splitOnP_ne_nil Option.isNone lines)
  simp [runs, List.splitOnP_cons_eq_if_modifyHead, hpieces, List.reduceOption_cons_of_some]

/-- Rows on lines of their own begin a run, and go on with the run that the lines behind them begin
with.  Where these begin with a line without rows, the run ends. -/
theorem runs_append (h : ∀ row ∈ rows, boardRows? row = some [row])
    (later : List (Option (List Row))) :
    runs (rows.map boardRows? ++ later) = (runs later).modifyHead (rows ++ ·) := by
  induction rows with
  | nil => exact (congrFun List.modifyHead_id _).symm
  | cons row rows ih =>
      have hrest := ih fun r hr => h r (List.mem_cons_of_mem row hr)
      rw [List.map_cons, List.cons_append, h row List.mem_cons_self, runs_some, hrest,
        List.modifyHead_modifyHead]
      rfl

/-- Every row of a run is a row of a line. -/
theorem exists_of_mem_runs (hblock : block ∈ runs lines) (hrow : row ∈ block) :
    ∃ rows, some rows ∈ lines ∧ row ∈ rows := by
  obtain ⟨run, hrun, rfl⟩ := List.mem_map.mp hblock
  obtain ⟨rows, hrows, hrow⟩ := List.mem_flatten.mp hrow
  exact ⟨rows, (Text.mem_of_mem_splitOnP hrun (List.reduceOption_mem_iff.mp hrows)).1, hrow⟩

/-- **The blocks** consist of rows that may stand on a board, as lines do, and none of them is
empty. -/
theorem BoardRows.of_mem_blocks {text : List Char} (h : block ∈ blocks text) : BoardRows block := by
  obtain ⟨hruns, hne⟩ := List.mem_filter.mp h
  have hrows : ∀ row ∈ block, ∃ rows, BoardRows rows ∧ row ∈ rows := by
    intro row hrow
    obtain ⟨rows, hmem, hrow⟩ := exists_of_mem_runs hruns hrow
    obtain ⟨⟨line, number⟩, -, hline⟩ := List.mem_map.mp hmem
    exact ⟨rows, .of_boardRows? hline, hrow⟩
  refine ⟨by simpa using hne, fun row hrow => ?_, fun row hrow => ?_⟩
  · obtain ⟨rows, hboard, hmem⟩ := hrows row hrow
    exact hboard.isRow row hmem
  · obtain ⟨rows, hboard, hmem⟩ := hrows row hrow
    exact hboard.isMark row hmem

/-! ## The pending block -/

/-- Closing leaves no block open. -/
theorem Blocks.current_close (b : Blocks) : b.close.current = [] := by
  unfold close
  split
  next h => exact List.isEmpty_iff.mp h
  next => rfl

/-- Closing completes the open block, if there is anything in it. -/
theorem Blocks.complete_close (b : Blocks) :
    b.close.complete = b.complete ++ [b.current].filter (!·.isEmpty) := by
  unfold close
  split
  next h => simp [h]
  next h => simp [h]

/-- **Reading lines** completes the runs that hold rows; the first run goes on where the open block
is.  The induction is over the lines, for any block that may be open. -/
theorem Blocks.complete_foldl_add (b : Blocks) (lines : List (Option (List Row))) :
    (lines.foldl add b).close.complete =
      b.complete ++ ((runs lines).modifyHead (b.current ++ ·)).filter (!·.isEmpty) := by
  induction lines generalizing b with
  | nil => rw [List.foldl_nil, complete_close, runs_nil, List.modifyHead_cons, List.append_nil]
  | cons line lines ih =>
      rw [List.foldl_cons, ih]
      cases line with
      | some rows => simp [add, runs_some, Function.comp_def]
      | none =>
          have hne : runs lines ≠ [] := by simp [runs, List.splitOnP_ne_nil]
          obtain ⟨first, later, hruns⟩ := List.exists_cons_of_ne_nil hne
          rw [add, current_close, complete_close, runs_none, hruns, List.modifyHead_cons,
            List.modifyHead_cons, List.append_nil, List.nil_append, List.append_assoc,
            ← List.filter_append, List.singleton_append]

/-! ## The reader -/

/-- Literals are not refused. -/
theorem refusal?_of_literals (h : ∀ c ∈ line, RunLength.isLiteral c) (number : Nat) :
    refusal? (line, number) = none := by
  rw [refusal?, RunLength.decode_literals h]
  split <;> rfl

/-- A line that calls for no refusal holds rows or does not, and this is all that the reader finds
out about it. -/
theorem rowsOfLine?_of_refusal?_eq_none (h : refusal? (line, number) = none) :
    rowsOfLine? line = .ok (boardRows? line) := by
  have hsome : ∀ cause, rowsOfLine? line ≠ .error cause := by
    intro cause hfault
    unfold rowsOfLine? at hfault
    split at hfault
    next hboard =>
      cases hdecode : RunLength.decode line <;> simp_all [refusal?, Except.map]
    next => cases hfault
  unfold boardRows?
  cases hrows : rowsOfLine? line with
  | error cause => exact absurd hrows (hsome cause)
  | ok rows? => rfl

/-- A line that calls for a refusal is refused, so what its rows would be need not be asked. -/
theorem rowsOfLine?_of_refusal?_eq_some (h : refusal? (line, number) = some fault) :
    ∃ cause, rowsOfLine? line = .error cause ∧ fault = .encoding number cause := by
  rw [refusal?] at h
  split at h
  next hboard =>
    split at h
    next => cases h
    next cause hdecode =>
      refine ⟨cause, ?_, (Option.some.inj h).symm⟩
      rw [rowsOfLine?, if_pos hboard, hdecode]
      rfl
  next => cases h

/-- One line is read: if it calls for a refusal the reader stops there, with the block that is open
left open, and if not its rows are added.  The proofs about the reader go through this equation. -/
theorem collect_cons (b : Blocks) (z : List Char × Nat) (rest : List (List Char × Nat)) :
    collect b (z :: rest) =
      match refusal? z with
      | none => collect (b.add (boardRows? z.1)) rest
      | some fault => (b, some fault) := by
  obtain ⟨line, number⟩ := z
  rw [collect]
  cases hrefusal : refusal? (line, number) with
  | none => rw [rowsOfLine?_of_refusal?_eq_none hrefusal]
  | some fault =>
      obtain ⟨cause, hrows, rfl⟩ := rowsOfLine?_of_refusal?_eq_some hrefusal
      rw [hrows]

/-- **The reader stops** at the first line that calls for a refusal, and reports what that line
calls for. -/
theorem snd_collect (b : Blocks) (numbered : List (List Char × Nat)) :
    (collect b numbered).2 = numbered.findSome? refusal? := by
  induction numbered generalizing b with
  | nil => rfl
  | cons z rest ih =>
      rw [collect_cons, List.findSome?_cons]
      cases refusal? z with
      | none => exact ih _
      | some fault => rfl

/-- **If there is no such line**, all blocks are complete in the end, and they are what the runs
say. -/
theorem fst_collect (b : Blocks) (h : numbered.findSome? refusal? = none) :
    (collect b numbered).1 =
      ((numbered.map (boardRows? ·.1)).foldl Blocks.add b).close := by
  induction numbered generalizing b with
  | nil => rfl
  | cons z rest ih =>
      rw [List.findSome?_cons] at h
      rw [collect_cons]
      cases hrefusal : refusal? z with
      | none =>
          rw [hrefusal] at h
          exact ih _ h
      | some fault => simp [hrefusal] at h

/-- If there is one, the blocks that are complete then are the first ones of the document.  So
warnings that come before a refusal are among those that would have come without it. -/
theorem complete_collect_isPrefix (b : Blocks) (numbered : List (List Char × Nat)) :
    (collect b numbered).1.complete <+:
      ((numbered.map (boardRows? ·.1)).foldl Blocks.add b).close.complete := by
  induction numbered generalizing b with
  | nil => exact List.prefix_rfl
  | cons z rest ih =>
      rw [collect_cons]
      cases refusal? z with
      | none => exact ih _
      | some fault =>
          rw [Blocks.complete_foldl_add]
          exact List.prefix_append _ _

/-- Reading begins without an open block, so what is complete in the end are the blocks of the
document. -/
theorem complete_foldl_add_initial (text : List Char) :
    (((contentLines text).map (boardRows? ·.1)).foldl Blocks.add {}).close.complete =
      blocks text := by
  rw [Blocks.complete_foldl_add, blocks]
  exact congrArg (List.filter _) (congrFun List.modifyHead_id _)

/-! ## What a document is read from -/

/-- The lines that are read are those that are no comments. -/
theorem map_fst_contentLines (text : List Char) :
    (contentLines text).map (·.1) = (Text.lines text).filter (!isComment ·) := by
  conv_rhs => rw [← List.zipIdx_map_fst 1 (Text.lines text), List.filter_map]
  rfl

/-- **The blocks of a document**, told by its lines without their numbers.  Numbers matter only to
refusals, so documents are compared by this equation. -/
theorem blocks_eq (text : List Char) :
    blocks text =
      (runs (((Text.lines text).filter (!isComment ·)).map boardRows?)).filter (!·.isEmpty) := by
  rw [blocks, ← map_fst_contentLines, List.map_map]
  rfl

/-- A line further down calls for its refusal there, under the number that it has then. -/
theorem refusal?_below (line : List Char) (number lines : Nat) :
    refusal? (line, number + lines) = (refusal? (line, number)).map (·.below lines) := by
  rw [refusal?, refusal?]
  split
  next => cases RunLength.decode line <;> rfl
  next => rfl

/-- Whether a line calls for a refusal does not depend on its number. -/
theorem refusal?_eq_none_of (h : refusal? (line, number) = none) (other : Nat) :
    refusal? (line, other) = none := by
  have hfirst : refusal? (line, 0) = none := by
    rwa [← Nat.zero_add number, refusal?_below, Option.map_eq_none_iff] at h
  rw [← Nat.zero_add other, refusal?_below, hfirst]
  rfl

/-- A document is not refused if each line that is read can be decoded. -/
theorem findSome?_refusal?_eq_none_iff {text : List Char} :
    (contentLines text).findSome? refusal? = none ↔
      ∀ line ∈ (Text.lines text).filter (!isComment ·), refusal? (line, 0) = none := by
  rw [List.findSome?_eq_none_iff, ← map_fst_contentLines, List.forall_mem_map]
  exact forall₂_congr fun z _ =>
    ⟨fun h => refusal?_eq_none_of h 0, fun h => refusal?_eq_none_of h z.2⟩

end Sokoban.Document
