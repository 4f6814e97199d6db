import Sokoban.Proofs.Document.Insertion

/-! # One document behind another

A document is put behind another one, with a blank line between the two.  The reader keeps an open
block and a count of lines, and both could leak from one document into the other.

They do not.  The blank line ends whatever block is open, so the blocks of both documents are those
of the first and those of the second (`blocks_append_blank`).  The lines of the second document are
numbered from where the first one ends, which shifts the line that its refusal names
(`findSome?_append_blank`).  What the documents give together is then worked out from what they give
alone (`parse_append_blank`).
-/

namespace Sokoban.Document

/-- What two documents give when they are read as one.  The first line that cannot be decoded
refuses both.  Otherwise the levels are those of the first and then those of the second, and a
document without levels adds none. -/
def together :
    Except Fault (List Level) → Except Fault (List Level) → Except Fault (List Level)
  | .error (.encoding line cause), _ => .error (.encoding line cause)
  | _, .error (.encoding line cause) => .error (.encoding line cause)
  | .ok ls, .ok ms => .ok (ls ++ ms)
  | .ok ls, .error .noLevels => .ok ls
  | .error .noLevels, .ok ms => .ok ms
  | .error .noLevels, .error .noLevels => .error .noLevels

variable {first text : List Char} {fault : Fault} {early late : Option Fault}

/-! ## Refusals and levels -/

/-- The refusals that lines call for name a line.  So the refusal for having no levels cannot be
mistaken for one of these. -/
theorem ne_noLevels_of_refusal (h : (contentLines text).findSome? refusal? = some fault) :
    fault ≠ .noLevels := by
  obtain ⟨⟨line, number⟩, -, hline⟩ := List.exists_of_findSome?_eq_some h
  obtain ⟨cause, -, rfl⟩ := rowsOfLine?_of_refusal?_eq_some hline
  exact nofun

/-- **Two documents** are refused for the first line that either is refused for, and give the levels
of both. -/
theorem outcome_append (hearly : ∀ fault ∈ early, fault ≠ .noLevels)
    (hlate : ∀ fault ∈ late, fault ≠ .noLevels) (lines : Nat) (ls ms : List Level) :
    outcome (early.or (late.map (·.below lines))) (ls ++ ms) =
      together (outcome early ls) ((outcome late ms).mapError (·.below lines)) := by
  cases early with
  | some fault =>
      cases fault with
      | encoding line cause => rfl
      | noLevels => exact absurd rfl (hearly _ rfl)
  | none =>
      cases late with
      | some fault =>
          cases fault with
          | encoding line cause => cases ls <;> rfl
          | noLevels => exact absurd rfl (hlate _ rfl)
      | none => cases ls <;> cases ms <;> simp [outcome, together, Except.mapError, Fault.below]

/-! ## A blank line between two documents -/

/-- The lines of both documents, with the blank one between them. -/
theorem lines_append_blank (h : first = [] ∨ first.getLast? = some '\n') (second : List Char) :
    Text.lines (first ++ '\n' :: second) = Text.lines first ++ [] :: Text.lines second := by
  have hended : ∀ c ∈ first.getLast?, c = '\n' := by
    intro c hc
    rcases h with rfl | h
    · cases hc
    · exact Option.some.inj (hc.symm.trans h)
  rw [Text.lines_append_of_ended hended]
  exact congrArg (Text.lines first ++ ·) (Text.lines_append (List.not_mem_nil : '\n' ∉ []))

/-- The lines that are read, with their numbers: those of the first document as they were, and those
of the second counted from behind the blank line. -/
theorem contentLines_append_blank (h : first = [] ∨ first.getLast? = some '\n')
    (second : List Char) :
    contentLines (first ++ '\n' :: second) =
      contentLines first ++ ([], (Text.lines first).length + 1) ::
        (contentLines second).map (Prod.map id (· + ((Text.lines first).length + 1))) := by
  have hshift : (Text.lines second).zipIdx (1 + (Text.lines first).length + 1) =
      ((Text.lines second).zipIdx 1).map (Prod.map id (· + ((Text.lines first).length + 1))) := by
    rw [List.map_snd_add_zipIdx_eq_zipIdx]
    congr 1
    omega
  have hblank : isComment [] = false := rfl
  rw [contentLines, lines_append_blank h, List.zipIdx_append, List.zipIdx_cons, hshift,
    List.filter_append, List.filter_cons_of_pos (by simp [hblank]), List.filter_map,
    Nat.add_comm 1]
  rfl

/-- **The blocks** are those of the first document and those of the second.  The blank line ends a
run, so none goes on from the one into the other. -/
theorem blocks_append_blank (h : first = [] ∨ first.getLast? = some '\n') (second : List Char) :
    blocks (first ++ '\n' :: second) = blocks first ++ blocks second := by
  rw [blocks_eq, lines_append_blank h, filter_insert rfl, List.map_append, List.map_cons,
    boardRows?_of_no_edge (by simp), runs_append_none, List.filter_append, ← blocks_eq, ← blocks_eq]

/-- **The first refusal** is that of the first document, or else that of the second, further down.
A blank line is never refused. -/
theorem findSome?_append_blank (h : first = [] ∨ first.getLast? = some '\n')
    (second : List Char) :
    (contentLines (first ++ '\n' :: second)).findSome? refusal? =
      ((contentLines first).findSome? refusal?).or
        (((contentLines second).findSome? refusal?).map
          (·.below ((Text.lines first).length + 1))) := by
  have hblank : refusal? ([], (Text.lines first).length + 1) = none :=
    refusal?_of_literals (by simp) _
  have hshift : refusal? ∘ Prod.map id (· + ((Text.lines first).length + 1)) =
      Option.map (·.below ((Text.lines first).length + 1)) ∘ refusal? :=
    funext fun z => refusal?_below z.1 z.2 _
  rw [contentLines_append_blank h, List.findSome?_append, List.findSome?_cons, hblank,
    List.findSome?_map, hshift, ← List.map_findSome?]

/-- **One document behind another.**  Let the first be empty or end with a line feed, and put a
blank line behind it and then the second.  If the first is refused for a line, so are both; if not
and the second is, then both are refused for that line, which now stands further down by the lines
of the first and the blank one.  Otherwise both give the levels of the first followed by those of
the second, and have none only if neither has any. -/
theorem parse_append_blank (h : first = [] ∨ first.getLast? = some '\n') (second : List Char) :
    parse (first ++ '\n' :: second) =
      together (parse first)
        ((parse second).mapError (·.below ((Text.lines first).length + 1))) := by
  have hlevels : drawnLevels (first ++ '\n' :: second) =
      drawnLevels first ++ drawnLevels second := by
    rw [drawnLevels, blocks_append_blank h, List.map_append]
    exact List.filterMap_append
  rw [parse_eq_outcome, parse_eq_outcome, parse_eq_outcome, findSome?_append_blank h, hlevels]
  exact outcome_append (fun _ => ne_noLevels_of_refusal) (fun _ => ne_noLevels_of_refusal) _ _ _

/-- A board with a line behind it that cannot be decoded, and with two more boards. -/
theorem parse_append_blank_rooms :
    ("#pb.#\n".toList = [] ∨ "#pb.#\n".toList.getLast? = some '\n') ∧
      parse "A title\n2)".toList = .error (.encoding 2 (.unexpectedClose 1)) ∧
      parse "#pb.#\n\nA title\n2)".toList = .error (.encoding 4 (.unexpectedClose 1)) ∧
      ∃ ls ms, ls.length = 1 ∧ ms.length = 2 ∧ parse "#pb.#\n".toList = .ok ls ∧
        parse "#p*#\n\n#@#".toList = .ok ms ∧
        parse "#pb.#\n\n#p*#\n\n#@#".toList = .ok (ls ++ ms) := by
  have hended : "#pb.#\n".toList = [] ∨ "#pb.#\n".toList.getLast? = some '\n' := .inr rfl
  have hrefused : parse "A title\n2)".toList = .error (.encoding 2 (.unexpectedClose 1)) := by
    decide +kernel
  have hone : (parse "#pb.#\n".toList).toOption.any (·.length == 1) := by decide +kernel
  have htwo : (parse "#p*#\n\n#@#".toList).toOption.any (·.length == 2) := by decide +kernel
  have hlines : (Text.lines "#pb.#\n".toList).length = 1 := by decide +kernel
  obtain ⟨ls, hls, hlength⟩ := exists_ok_of_any hone
  obtain ⟨ms, hms, hlength'⟩ := exists_ok_of_any htwo
  have hfault := parse_append_blank hended "A title\n2)".toList
  have hlevels := parse_append_blank hended "#p*#\n\n#@#".toList
  rw [hls, hrefused, hlines] at hfault
  rw [hls, hms] at hlevels
  exact ⟨hended, hrefused, hfault, ls, ms, beq_iff_eq.mp hlength, beq_iff_eq.mp hlength', hls, hms,
    hlevels⟩

end Sokoban.Document
