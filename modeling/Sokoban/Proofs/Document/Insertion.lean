import Sokoban.Proofs.Document.Parsing

/-! # Lines between boards

A line that holds no rows ends the block above it.  Where there is no block to end, or none that
goes on below, such a line is not noticed: the blocks of the document stay what they are
(`filter_runs_insert`).  So prose between boards is skipped (`parse_insert`), with one exception.
A line that is written in board characters is decoded before it is looked at for rows, and if it
cannot be decoded then the document is refused, even if there is no wall on the line
(`parse_numeral_before_board`).
-/

namespace Sokoban.Document

/-- The rows of the line next to a gap, if there is such a line and it holds rows.  Comments are
looked through. -/
def nearest (lines : List (List Char)) : Option (List Row) :=
  (lines.find? (!isComment ·)).bind boardRows?

/-- Whether a line that is put between others is put into a block. -/
def Splits (before after : List (List Char)) : Prop :=
  (nearest before.reverse).isSome ∧ (nearest after).isSome

instance (before after : List (List Char)) : Decidable (Splits before after) :=
  inferInstanceAs (Decidable (_ ∧ _))

variable {text inserted line : List Char} {ls : List Level} {before after : List (List Char)}
  {above below : List (Option (List Row))} {number : Nat} {fault : Fault}

/-! ## Lines without edges -/

/-- **A line without walls** and boxes on goals holds no rows, whatever its counts and brackets
stand for. -/
theorem boardRows?_of_no_edge (h : ∀ c ∈ line, isEdge c = false) : boardRows? line = none := by
  refine Option.eq_none_iff_forall_ne_some.mpr fun rows hrows => ?_
  obtain ⟨decoded, -, hdecode, -, hall, rfl⟩ := boardRows?_eq_some_iff.mp hrows
  obtain ⟨c, hc, hedge⟩ := exists_isEdge_of_rows hall
  have hline := (RunLength.mem_of_decode hdecode hc).1
  rw [h c hline] at hedge
  contradiction

/-! ## Runs around a line -/

/-- A line without rows ends a run. -/
theorem runs_append_none (above below : List (Option (List Row))) :
    runs (above ++ none :: below) = runs above ++ runs below := by
  rw [runs, List.splitOnP_append_cons above below rfl, List.map_append, runs, runs]

/-- **A line without rows** is not noticed where it is not put into a run with rows on both sides.
Put at either end of a run or between two of them, it makes an empty run at most, and these are
dropped. -/
theorem filter_runs_insert (h : ¬(above.getLast?.join.isSome ∧ below.head?.join.isSome)) :
    (runs (above ++ none :: below)).filter (!·.isEmpty) =
      (runs (above ++ below)).filter (!·.isEmpty) := by
  rw [runs_append_none, List.filter_append]
  rcases List.eq_nil_or_concat' above with rfl | ⟨earlier, last, rfl⟩
  · rw [runs_nil]
    rfl
  · cases last with
    | none =>
        rw [List.append_assoc, List.singleton_append, runs_append_none, runs_append_none, runs_nil]
        simp
    | some rows =>
        -- The run above the line has rows, so the line below it has none.
        cases below with
        | nil => simp [runs_nil]
        | cons next later =>
            cases next with
            | some rows => simp at h
            | none => rw [runs_append_none, runs_none, List.filter_append]; rfl

/-! ## Documents with the same blocks -/

/-- The line next to a gap, found among the lines that are read. -/
theorem nearest_eq (lines : List (List Char)) :
    nearest lines = ((lines.filter (!isComment ·)).map boardRows?).head?.join := by
  rw [nearest, List.head?_map, List.head?_filter]
  cases lines.find? (!isComment ·) <;> rfl

/-- Documents without refusals that have the same blocks give the same levels: nothing else about
their lines is looked at. -/
theorem parse_congr (h : (contentLines text).findSome? refusal? = none)
    (h' : (contentLines inserted).findSome? refusal? = none) (hblocks : blocks inserted = blocks text) :
    parse inserted = parse text := by
  rw [parse_eq_outcome, parse_eq_outcome, h, h', drawnLevels, hblocks, drawnLevels]

/-! ## One more line -/

/-- The lines that are read when one is put between the others. -/
theorem filter_insert (hline : isComment line = false) :
    (before ++ line :: after).filter (!isComment ·) =
      before.filter (!isComment ·) ++ line :: after.filter (!isComment ·) := by
  rw [List.filter_append, List.filter_cons_of_pos (by simpa using hline)]

/-- The blocks stay when a line without rows is put where it does not split one.  This is
`filter_runs_insert`, with the rows of the lines around it. -/
theorem blocks_insert (hlines : Text.lines text = before ++ after)
    (hinserted : Text.lines inserted = before ++ line :: after) (hcomment : isComment line = false)
    (hrows : boardRows? line = none) (hsplit : ¬Splits before after) :
    blocks inserted = blocks text := by
  rw [blocks_eq, blocks_eq, hlines, hinserted, filter_insert hcomment, List.filter_append,
    List.map_append, List.map_append, List.map_cons, hrows]
  refine filter_runs_insert fun hboth => hsplit ⟨?_, ?_⟩
  · rw [nearest_eq, List.filter_reverse, List.map_reverse, List.head?_reverse]
    exact hboth.1
  · rw [nearest_eq]
    exact hboth.2

/-- Where no line of a document is refused, none before a place in it is. -/
theorem refusal?_before (hlines : Text.lines text = before ++ after)
    (h : (contentLines text).findSome? refusal? = none) :
    ∀ z ∈ (before.zipIdx 1).filter (fun (line, _) => !isComment line), refusal? z = none := by
  intro z hz
  refine List.findSome?_eq_none_iff.mp h z ?_
  rw [contentLines, hlines, List.zipIdx_append, List.filter_append]
  exact List.mem_append_left _ hz

/-- **A line that cannot be decoded** refuses the document that it is put into.  The lines before it
call for no refusal, and so it is the first that does. -/
theorem findSome?_insert (hlines : Text.lines text = before ++ after)
    (hinserted : Text.lines inserted = before ++ line :: after)
    (h : (contentLines text).findSome? refusal? = none) (hcomment : isComment line = false)
    (hfault : refusal? (line, before.length + 1) = some fault) :
    (contentLines inserted).findSome? refusal? = some fault := by
  rw [contentLines, hinserted, List.zipIdx_append, List.zipIdx_cons, List.filter_append,
    List.filter_cons_of_pos (by simpa using hcomment), List.findSome?_append,
    List.findSome?_eq_none_iff.mpr (refusal?_before hlines h), Option.none_or, List.findSome?_cons, Nat.add_comm 1,
    hfault]

/-- **Prose between boards is skipped.**  A line without walls and boxes on goals is put between two
lines of a document that has levels, and not into a block.  If the line is a comment or calls for no
refusal, then the levels stay what they are; and if it does call for one, it refuses the document
under its own number. -/
theorem parse_insert (hparse : parse text = .ok ls) (hlines : Text.lines text = before ++ after)
    (hinserted : Text.lines inserted = before ++ line :: after)
    (hline : ∀ c ∈ line, isEdge c = false) (hsplit : ¬Splits before after) :
    parse inserted =
      if isComment line then .ok ls
      else match refusal? (line, before.length + 1) with
        | some fault => .error fault
        | none => .ok ls := by
  have hquiet := no_refusal_of_parse hparse
  by_cases hcomment : isComment line
  -- A comment is left out before anything is looked at, so the lines that are read are the same.
  · have hkept : (Text.lines inserted).filter (!isComment ·) =
        (Text.lines text).filter (!isComment ·) := by
      rw [hlines, hinserted, List.filter_append, List.filter_cons_of_neg (by simpa using hcomment),
        List.filter_append]
    rw [if_pos hcomment, ← hparse]
    refine parse_congr hquiet ?_ ?_
    · rwa [findSome?_refusal?_eq_none_iff, hkept, ← findSome?_refusal?_eq_none_iff]
    · rw [blocks_eq, hkept, ← blocks_eq]
  · rw [if_neg hcomment]
    rw [Bool.not_eq_true] at hcomment
    cases hrefusal : refusal? (line, before.length + 1) with
    | some fault =>
        exact (read_of_refusal (findSome?_insert hlines hinserted hquiet hcomment hrefusal)).1
    | none =>
        have hblocks := blocks_insert hlines hinserted hcomment (boardRows?_of_no_edge hline) hsplit
        have hall := findSome?_refusal?_eq_none_iff.mp hquiet
        rw [hlines, List.filter_append, List.forall_mem_append] at hall
        rw [← hparse]
        refine parse_congr hquiet (findSome?_refusal?_eq_none_iff.mpr ?_) hblocks
        rw [hinserted, filter_insert hcomment, List.forall_mem_append, List.forall_mem_cons]
        exact ⟨hall.1, refusal?_eq_none_of hrefusal 0, hall.2⟩

/-- A line that is written in board characters but holds no rows is put above a comment and a board,
below the blank line that ends the board before. -/
theorem parse_insert_between :
    ∃ ls, ls.length = 2 ∧
      parse "#pb.#\n\n:: second\n#p*#\n".toList = .ok ls ∧
      (∀ c ∈ "2(-p)".toList, isEdge c = false) ∧
      ¬Splits ["#pb.#".toList, []] [":: second".toList, "#p*#".toList] ∧
      parse "#pb.#\n\n2(-p)\n:: second\n#p*#\n".toList = .ok ls := by
  have hline : ∀ c ∈ "2(-p)".toList, isEdge c = false := by simp [isEdge]
  have hsplit : ¬Splits ["#pb.#".toList, []] [":: second".toList, "#p*#".toList] := by
    decide +kernel
  have hlines : Text.lines "#pb.#\n\n:: second\n#p*#\n".toList =
      ["#pb.#".toList, []] ++ [":: second".toList, "#p*#".toList] := by decide +kernel
  have hinserted : Text.lines "#pb.#\n\n2(-p)\n:: second\n#p*#\n".toList =
      ["#pb.#".toList, []] ++ "2(-p)".toList :: [":: second".toList, "#p*#".toList] := by
    decide +kernel
  have htwo : (parse "#pb.#\n\n:: second\n#p*#\n".toList).toOption.any (·.length == 2) := by
    decide +kernel
  obtain ⟨ls, hparse, hlength⟩ := exists_ok_of_any htwo
  exact ⟨ls, beq_iff_eq.mp hlength, hparse, hline, hsplit,
    parse_insert hparse hlines hinserted hline hsplit⟩

/-- **A numeral before a board** refuses the document.  The line has no wall and no box on a goal,
and is put before everything. -/
theorem parse_numeral_before_board :
    (∃ ls, parse "#####\n#pb.#\n#####".toList = .ok ls ∧ ls.length = 1) ∧
      Text.lines "1)\n#####\n#pb.#\n#####".toList =
        "1)".toList :: Text.lines "#####\n#pb.#\n#####".toList ∧
      (∀ c ∈ "1)".toList, isEdge c = false) ∧
      ¬Splits [] (Text.lines "#####\n#pb.#\n#####".toList) ∧
      parse "1)\n#####\n#pb.#\n#####".toList = .error (.encoding 1 (.unexpectedClose 1)) := by
  have hone : (parse "#####\n#pb.#\n#####".toList).toOption.any (·.length == 1) := by
    decide +kernel
  obtain ⟨ls, hparse, hlength⟩ := exists_ok_of_any hone
  refine ⟨⟨ls, hparse, beq_iff_eq.mp hlength⟩, by decide +kernel, ?_, by decide +kernel,
    by decide +kernel⟩
  simp [isEdge]

end Sokoban.Document
