import Sokoban.Proofs.Document.Insertion
import Sokoban.Proofs.RunLength.Decoding

/-! # Documents without run lengths

A document may be written without counts, groups and bars, if it has any levels.  A line that is
decoded holds the same rows again (`boardRows?_decoded`), and rows that share a line make the same
run when each has a line of its own (`runs_append`).  So neither is noticed by the reader: the
blocks of the document stay what they are (`parse_unpacked`).

One case is apart.  A line may stand for nothing, such as `0#`.  Where it is the last one and has no
ending, the document has one line less once that line is decoded.
-/

namespace Sokoban.Document

variable {text replaced line decoded before after : List Char} {rows : List Row}
  {ls : List Level} {above below old new : List (List Char)} {c : Char}

/-! ## Decoded lines -/

/-- Blanks stand for themselves.  None of them is a bracket or a digit, though blanks lie below and
above the digits. -/
theorem isLiteral_of_isBlank (h : Text.isBlank c) : RunLength.isLiteral c := by
  refine RunLength.isLiteral_iff.mpr ⟨?_, ?_, fun hdigit => ?_⟩
  · rintro rfl
    contradiction
  · rintro rfl
    contradiction
  · -- The digits lie between the two ranges of blanks.
    have hlow : ¬c ≤ '\r' := fun hle => absurd (Char.le_trans hdigit.1 hle) (by decide)
    have hhigh : ¬ '\u2000' ≤ c := fun hle => absurd (Char.le_trans hle hdigit.2) (by decide)
    simp only [Text.isBlank, hlow, hhigh, decide_false, Bool.and_false, Bool.false_and,
      Bool.false_or, Bool.or_false, Bool.or_eq_true, beq_iff_eq, or_assoc] at h
    rcases h with rfl | rfl | rfl | rfl | rfl | rfl | rfl | rfl | rfl <;>
      exact absurd hdigit (by decide)

/-- A line of board characters that calls for no refusal can be decoded.  If decoding failed, the
line would be refused for that, whatever else is wrong with it. -/
theorem exists_decode (hline : ∀ c ∈ line, isBoardChar c) (h : refusal? (line, 0) = none) :
    ∃ decoded, RunLength.decode line = .ok decoded := by
  by_cases hboard : isBoardText line
  · rw [refusal?, if_pos hboard] at h
    cases hdecode : RunLength.decode line with
    | ok decoded => exact ⟨decoded, rfl⟩
    | error cause => simp [hdecode] at h
  · have hblank : ∀ c ∈ line, Text.isBlank c := by
      rw [isBoardText, List.all_eq_true.mpr hline] at hboard
      simpa using hboard
    exact ⟨line, RunLength.decode_literals fun c hc => isLiteral_of_isBlank (hblank c hc)⟩

/-- **A decoded line** holds the rows that it held before.  Decoding it again changes nothing, since
nothing is left to decode. -/
theorem boardRows?_decoded (hline : ∀ c ∈ line, isBoardChar c)
    (hdecode : RunLength.decode line = .ok decoded) : boardRows? decoded = boardRows? line := by
  have hagain := RunLength.decode_decoded hdecode
  have hmem : ∀ c ∈ decoded, c ∈ line := fun c hc => (RunLength.mem_of_decode hdecode hc).1
  refine Option.ext fun rows => ?_
  rw [boardRows?_eq_some_iff, boardRows?_eq_some_iff]
  constructor
  · rintro ⟨twice, -, htwice, hne, hrows, rfl⟩
    obtain rfl : decoded = twice := Except.ok.inj (hagain.symm.trans htwice)
    obtain ⟨c, hc, hedge⟩ := exists_isEdge_of_rows hrows
    exact ⟨decoded, isBoardText_of_isEdge hline (hmem c hc) hedge, hdecode, hne, hrows, rfl⟩
  · rintro ⟨once, -, honce, hne, hrows, rfl⟩
    obtain rfl : decoded = once := Except.ok.inj (hdecode.symm.trans honce)
    obtain ⟨c, hc, hedge⟩ := exists_isEdge_of_rows hrows
    exact ⟨decoded, isBoardText_of_isEdge (fun d hd => hline d (hmem d hd)) hc hedge, hagain, hne,
      hrows, rfl⟩

/-! ## Lines in place of others -/

/-- What follows decides how runs differ.  If two documents have the same runs from some line on,
putting the same lines in front of both keeps that so. -/
theorem runs_append_congr {a b : List (Option (List Row))} (h : runs a = runs b)
    (earlier : List (Option (List Row))) : runs (earlier ++ a) = runs (earlier ++ b) := by
  induction earlier with
  | nil => exact h
  | cons line earlier ih =>
      cases line with
      | none => rw [List.cons_append, List.cons_append, runs_none, runs_none, ih]
      | some rows => rw [List.cons_append, List.cons_append, runs_some, runs_some, ih]

/-- The lines that are read when some of them are known to be. -/
theorem filter_between (h : ∀ line ∈ new, isComment line = false) :
    (above ++ (new ++ below)).filter (!isComment ·) =
      above.filter (!isComment ·) ++ (new ++ below.filter (!isComment ·)) := by
  have hnew : new.filter (!isComment ·) = new :=
    List.filter_eq_self.mpr fun line hline => by simp [h line hline]
  rw [List.filter_append, List.filter_append, hnew]

/-- **Lines with the same rows** can take each other's places.  Blocks are made of rows, and
refusals are the same as neither line calls for one. -/
theorem parse_replace (hparse : parse text = .ok ls)
    (hlines : Text.lines text = above ++ (old ++ below))
    (hreplaced : Text.lines replaced = above ++ (new ++ below))
    (hold : ∀ line ∈ old, isComment line = false) (hnew : ∀ line ∈ new, isComment line = false)
    (hquiet : ∀ line ∈ new, refusal? (line, 0) = none)
    (hruns : ∀ later, runs (new.map boardRows? ++ later) = runs (old.map boardRows? ++ later)) :
    parse replaced = .ok ls := by
  have hno := no_refusal_of_parse hparse
  have hall := findSome?_refusal?_eq_none_iff.mp hno
  rw [hlines, filter_between hold, List.forall_mem_append, List.forall_mem_append] at hall
  rw [← hparse]
  refine parse_congr hno (findSome?_refusal?_eq_none_iff.mpr ?_) ?_
  · rw [hreplaced, filter_between hnew, List.forall_mem_append, List.forall_mem_append]
    exact ⟨hall.1, hquiet, hall.2.2⟩
  · rw [blocks_eq, blocks_eq, hlines, hreplaced, filter_between hold, filter_between hnew,
      List.map_append, List.map_append, List.map_append, List.map_append,
      runs_append_congr (hruns _)]

/-- A line without rows may be left out where nothing follows it. -/
theorem parse_drop_last (hparse : parse text = .ok ls) (hlines : Text.lines text = above ++ [line])
    (hreplaced : Text.lines replaced = above) (hcomment : isComment line = false)
    (hrows : boardRows? line = none) : parse replaced = .ok ls := by
  have hno := no_refusal_of_parse hparse
  have hall := findSome?_refusal?_eq_none_iff.mp hno
  rw [hlines, List.filter_append, List.forall_mem_append, ← hreplaced] at hall
  have hsplit : ¬Splits above [] := fun h => absurd h.2 (by decide)
  have hblocks : blocks text = blocks replaced :=
    blocks_insert (by rw [hreplaced, List.append_nil]) hlines hcomment hrows hsplit
  rw [← hparse]
  exact parse_congr hno (findSome?_refusal?_eq_none_iff.mpr hall.1) hblocks.symm

/-! ## Lines of a document -/

/-- The lines of a document around one of them, which stay when others are put in its place. -/
theorem exists_lines_eq (h : Text.Surrounds before after) (hline : ∀ c ∈ line, isBoardChar c)
    (hne : line ≠ []) :
    ∃ below, Text.lines (before ++ line ++ after) = Text.lines before ++ ([line] ++ below) ∧
      ∀ new ≠ [], (∀ l ∈ new, ∀ c ∈ l, isBoardChar c) → (after = [] → new.getLast? ≠ some []) →
        Text.lines (before ++ ['\n'].intercalate new ++ after) =
          Text.lines before ++ (new ++ below) := by
  obtain ⟨below, hlines⟩ := h.exists_lines_eq
  refine ⟨below, ?_, fun new hnew hboard =>
    hlines new hnew fun l hl => isLine_of_isBoardChar (hboard l hl)⟩
  have hsingle := hlines [line] (List.cons_ne_nil line [])
    (by simpa using isLine_of_isBoardChar hline) (by simpa using fun _ => hne)
  rwa [List.intercalate_singleton] at hsingle

/-- A line of a document can be decoded, if the document has levels. -/
theorem exists_decode_of_parse (hparse : parse (before ++ line ++ after) = .ok ls)
    (h : Text.Surrounds before after) (hline : ∀ c ∈ line, isBoardChar c) (hne : line ≠ []) :
    ∃ decoded, RunLength.decode line = .ok decoded := by
  obtain ⟨below, hlines, -⟩ := exists_lines_eq h hline hne
  have hall := findSome?_refusal?_eq_none_iff.mp (no_refusal_of_parse hparse)
  rw [hlines] at hall
  refine exists_decode hline (hall line ?_)
  simp [isComment_of_isBoardChar hline]

/-- Lines that make the same runs are put in the place of one. -/
theorem parse_replace_line (hparse : parse (before ++ line ++ after) = .ok ls)
    (h : Text.Surrounds before after) (hline : ∀ c ∈ line, isBoardChar c) (hne : line ≠ [])
    (hnew : new ≠ []) (hlast : after = [] → new.getLast? ≠ some [])
    (hboard : ∀ l ∈ new, ∀ c ∈ l, isBoardChar c)
    (hliteral : ∀ l ∈ new, ∀ c ∈ l, RunLength.isLiteral c)
    (hruns : ∀ later, runs (new.map boardRows? ++ later) = runs (boardRows? line :: later)) :
    parse (before ++ ['\n'].intercalate new ++ after) = .ok ls := by
  obtain ⟨below, hlines, hreplaced⟩ := exists_lines_eq h hline hne
  refine parse_replace hparse hlines (hreplaced new hnew hboard hlast) ?_ ?_ ?_ hruns
  · simpa using isComment_of_isBoardChar hline
  · exact fun l hl => isComment_of_isBoardChar (hboard l hl)
  · exact fun l hl => refusal?_of_literals (hliteral l hl) 0

/-- **A line** may be decoded where it stands, whatever is in front of it or behind it in the
document. -/
theorem parse_decoded (hparse : parse (before ++ line ++ after) = .ok ls)
    (h : Text.Surrounds before after) (hline : ∀ c ∈ line, isBoardChar c) (hne : line ≠ [])
    (hdecode : RunLength.decode line = .ok decoded) :
    parse (before ++ decoded ++ after) = .ok ls := by
  have hmem := fun c hc => RunLength.mem_of_decode (c := c) hdecode hc
  have hrows := boardRows?_decoded hline hdecode
  by_cases hgone : after = [] ∧ decoded = []
  · obtain ⟨rfl, rfl⟩ := hgone
    have hlines := Text.lines_append_of_ended h.begins line
    rw [Text.lines_of_not_mem (isLine_of_isBoardChar hline).no_feed hne] at hlines
    rw [List.append_nil] at hparse ⊢
    exact parse_drop_last hparse hlines (by rw [List.append_nil])
      (isComment_of_isBoardChar hline) (hrows.symm.trans rfl)
  · have hlast : after = [] → [decoded].getLast? ≠ some [] := by simpa using hgone
    have hboard : ∀ l ∈ [decoded], ∀ c ∈ l, isBoardChar c := by
      simpa using fun c hc => hline c (hmem c hc).1
    have hliteral : ∀ l ∈ [decoded], ∀ c ∈ l, RunLength.isLiteral c := by
      simpa using fun c hc => (hmem c hc).2
    have hreplaced := parse_replace_line hparse h hline hne (List.cons_ne_nil decoded []) hlast
      hboard hliteral fun later => by rw [List.map_singleton, List.singleton_append, hrows]
    rwa [List.intercalate_singleton] at hreplaced

/-- **Rows that share a line** may have one each.  The lines behind them get other numbers, but no
refusal is left that would mention one. -/
theorem parse_separated (hparse : parse (before ++ line ++ after) = .ok ls)
    (h : Text.Surrounds before after) (hline : ∀ c ∈ line, isBoardChar c) (hne : line ≠ [])
    (hrows : boardRows? line = some rows) :
    parse (before ++ ['\n'].intercalate rows ++ after) = .ok ls := by
  have hboard := BoardRows.of_boardRows? hrows
  have halone : ∀ row ∈ rows, boardRows? row = some [row] :=
    fun row hrow => boardRows?_of_isRow (hboard.isRow row hrow) (hboard.isMark row hrow)
  refine parse_replace_line hparse h hline hne hboard.ne_nil ?_ ?_ ?_ ?_
  · intro _ hlast
    have hnil := hboard.isRow [] (List.mem_of_getLast? hlast)
    contradiction
  · exact fun row hrow c hc => isBoardChar_of_isMark (hboard.isMark row hrow c hc)
  · exact fun row hrow c hc => isLiteral_of_isMark (hboard.isMark row hrow c hc)
  · intro later
    rw [runs_append halone, hrows, runs_some]

/-- **Run lengths and bars** are a way of writing and no more.  What a line is decoded to holds no
brackets and no digits, is decoded to itself, and is longer than the line by no more than the limit.
Let a document have levels, and let a line of it be written in board characters.  Then the line can
be decoded and the document has the same levels with the decoded line in its place; and if the line
holds rows, then also with each of its rows on a line of its own. -/
theorem parse_unpacked :
    (∀ text decoded, RunLength.decode text = .ok decoded →
      (∀ c ∈ decoded, c ≠ '(' ∧ c ≠ ')' ∧ ¬('0' ≤ c ∧ c ≤ '9')) ∧
        RunLength.decode decoded = .ok decoded ∧
        String.utf8Len decoded ≤ String.utf8Len text + RunLength.maxBytes) ∧
    ∀ before line after ls, Text.Surrounds before after → (∀ c ∈ line, isBoardChar c) →
      parse (before ++ line ++ after) = .ok ls →
        ∃ decoded, RunLength.decode line = .ok decoded ∧
          parse (before ++ decoded ++ after) = .ok ls ∧
          ∀ rows, rowsOfLine? line = .ok (some rows) →
            rows = splitRows decoded ∧
              parse (before ++ ['\n'].intercalate rows ++ after) = .ok ls := by
  refine ⟨fun text decoded hdecode => ⟨fun c hc => ?_, RunLength.decode_decoded hdecode,
    RunLength.utf8Len_le_of_decode hdecode⟩, fun before line after ls h hline hparse => ?_⟩
  · exact RunLength.isLiteral_iff.mp (RunLength.mem_of_decode hdecode hc).2
  · by_cases hne : line = []
    · subst hne
      exact ⟨[], rfl, hparse, nofun⟩
    · obtain ⟨decoded, hdecode⟩ := exists_decode_of_parse hparse h hline hne
      refine ⟨decoded, hdecode, parse_decoded hparse h hline hne hdecode, fun rows hrows => ?_⟩
      have hsome : boardRows? line = some rows := by rw [boardRows?, hrows]; rfl
      refine ⟨?_, parse_separated hparse h hline hne hsome⟩
      obtain ⟨other, -, hother, -, -, hsplit⟩ := boardRows?_eq_some_iff.mp hsome
      obtain rfl : decoded = other := Except.ok.inj (hdecode.symm.trans hother)
      exact hsplit.symm

/-- A room on one line, below its title: decoded, and with its rows on lines of their own. -/
theorem parse_unpacked_room :
    (RunLength.decode "2(3-#|)".toList = .ok "---#|---#|".toList ∧
      (∀ c ∈ "---#|---#|".toList, c ≠ '(' ∧ c ≠ ')' ∧ ¬('0' ≤ c ∧ c ≤ '9')) ∧
      RunLength.decode "---#|---#|".toList = .ok "---#|---#|".toList ∧
      String.utf8Len "---#|---#|".toList ≤ String.utf8Len "2(3-#|)".toList + RunLength.maxBytes) ∧
    ∃ ls, ls.length = 1 ∧ Text.Surrounds "A room\n".toList "\r\n".toList ∧
      (∀ c ∈ "5#|#@$.#|5#|".toList, isBoardChar c) ∧
      parse "A room\n5#|#@$.#|5#|\r\n".toList = .ok ls ∧
      parse "A room\n#####|#@$.#|#####|\r\n".toList = .ok ls ∧
      parse "A room\n#####\n#@$.#\n#####\r\n".toList = .ok ls := by
  have hpacked : RunLength.decode "2(3-#|)".toList = .ok "---#|---#|".toList := by decide +kernel
  have hsurrounds : Text.Surrounds "A room\n".toList "\r\n".toList :=
    ⟨by simp, .inr ⟨[], .inr rfl⟩⟩
  have hline : ∀ c ∈ "5#|#@$.#|5#|".toList, isBoardChar c := List.all_eq_true.mp (by decide)
  have hone : (parse "A room\n5#|#@$.#|5#|\r\n".toList).toOption.any (·.length == 1) := by
    decide +kernel
  obtain ⟨ls, hparse, hlength⟩ := exists_ok_of_any hone
  obtain ⟨decoded, hdecode, hdecoded, hrows⟩ :=
    parse_unpacked.2 "A room\n".toList "5#|#@$.#|5#|".toList "\r\n".toList ls hsurrounds hline hparse
  have heq : RunLength.decode "5#|#@$.#|5#|".toList = .ok "#####|#@$.#|#####|".toList := by
    decide +kernel
  obtain rfl := Except.ok.inj (heq.symm.trans hdecode)
  obtain ⟨-, hseparated⟩ := hrows ["#####".toList, "#@$.#".toList, "#####".toList] (by decide +kernel)
  exact ⟨⟨hpacked, parse_unpacked.1 _ _ hpacked⟩, ls, beq_iff_eq.mp hlength, hsurrounds, hline, hparse,
    hdecoded, hseparated⟩

end Sokoban.Document
