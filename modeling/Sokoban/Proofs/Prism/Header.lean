import Sokoban.Prism
import Sokoban.Proofs.Text

/-! # The comment at the head of a written model

A comment is written line by line behind two slashes and a blank, and an empty line follows.  Taking
these marks away from the first lines gives the comment back (`headerOf_render`), and what is behind
them is the model without it (`dropWhile_lines_render`).  The comment ends at the first line without
the mark, which is the empty one; so a comment may have empty lines of its own, since they have the
mark as well.

The comment is given by its lines.  Splitting a text at line feeds gives these lines back unless the
last of them is empty.
-/

namespace Sokoban.Prism

open Text (IsLine)

/-- What the lines of a comment begin with. -/
def commentMark : List Char :=
  "// ".toList

/-- The text of the comment lines that a text begins with. -/
def headerOf (text : List Char) : List Char :=
  ['\n'].intercalate
    (((Text.lines text).takeWhile commentMark.isPrefixOf).map (·.drop commentMark.length))

variable {ls : List (List Char)} {line : List Char} {text : String} {m : Model}

/-- A line behind a mark is a line still. -/
theorem isLine_comment (h : IsLine line) : IsLine (commentMark ++ line) := by
  constructor
  · rw [List.mem_append, not_or]
    exact ⟨by decide, h.no_feed⟩
  · rw [List.getLast?_append]
    cases hlast : line.getLast? with
    | none => decide
    | some c => simpa [hlast] using h.no_return

/-- All lines of a comment begin with the mark. -/
theorem isPrefixOf_of_mem_map (h : line ∈ ls.map (commentMark ++ ·)) : commentMark.isPrefixOf line := by
  obtain ⟨l, -, rfl⟩ := List.mem_map.mp h
  exact List.isPrefixOf_iff_prefix.mpr (List.prefix_append _ _)

/-- A comment is written as its lines with the mark in front of each. -/
theorem toList_comment (text : String) :
    (comment text).toList =
      ['\n'].intercalate ((Text.lines text.toList).map (commentMark ++ ·)) := by
  rw [comment, String.toList_intercalate, List.map_map]
  congr 1
  exact List.map_congr_left fun line _ => by simp [commentMark]

/-- The comment of a model is followed by an empty line, and by what the model would be without it.
So the rest can be read as if there were no comment. -/
theorem toList_render (h : m.comment? = some text) :
    (render m).toList =
      (comment text).toList ++ '\n' :: '\n' :: (render { m with comment? := none }).toList := by
  have hsections : sections m = comment text :: sections { m with comment? := none } := by
    rw [sections, sections, h]
    rfl
  have hlater : sections { m with comment? := none } ≠ [] := by simp [sections]
  have hmap : (sections { m with comment? := none }).map String.toList ≠ [] := by simpa using hlater
  rw [render, hsections, render, String.toList_append, String.toList_intercalate, List.map_cons,
    List.intercalate_cons_of_ne_nil hmap, String.toList_append, String.toList_intercalate]
  simp

section Comment

variable (h : m.comment? = some text) (htext : text.toList = ['\n'].intercalate ls)
  (hlines : ∀ line ∈ ls, IsLine line) (hlast : ls.getLast? ≠ some []) (hne : ls ≠ [])

include h htext hlines hlast hne

/-- The lines of a model are those of its comment, an empty one, and those of the sections.  As
lines they can be told apart without looking at characters. -/
theorem lines_render :
    Text.lines (render m).toList =
      ls.map (commentMark ++ ·) ++ [] :: Text.lines (render { m with comment? := none }).toList := by
  have hcomment : (comment text).toList ++ ['\n'] =
      (ls.map (commentMark ++ ·)).flatMap (· ++ ['\n']) := by
    rw [Text.flatMap_eq_intercalate (by simpa using hne), toList_comment, htext,
      Text.lines_intercalate hlines hlast]
  rw [toList_render h, List.append_cons, hcomment, Text.lines_flatMap_append_of_isLine,
    ← List.nil_append ('\n' :: _), Text.lines_append List.not_mem_nil]
  · rfl
  · intro line hline
    obtain ⟨l, hl, rfl⟩ := List.mem_map.mp hline
    exact isLine_comment (hlines l hl)

/-- **The comment** can be read off the written model, by the marks that its lines begin with.  The
first line without the mark ends it, and there is one, as the model begins there. -/
theorem headerOf_render : headerOf (render m).toList = text.toList := by
  have hstop : ([] :: Text.lines (render { m with comment? := none }).toList).takeWhile
      commentMark.isPrefixOf = [] := by
    rw [List.takeWhile_cons]
    rfl
  rw [headerOf, lines_render h htext hlines hlast hne,
    List.takeWhile_append_of_pos fun line => isPrefixOf_of_mem_map, hstop, List.append_nil,
    List.map_map, htext]
  congr 1
  exact List.map_id'' (fun line => List.drop_left ..) ls

/-- What is behind the comment is the model without it. -/
theorem dropWhile_lines_render :
    (Text.lines (render m).toList).dropWhile commentMark.isPrefixOf =
      [] :: Text.lines (render { m with comment? := none }).toList := by
  rw [lines_render h htext hlines hlast hne,
    List.dropWhile_append_of_pos fun line => isPrefixOf_of_mem_map, List.dropWhile_cons]
  rfl

end Comment

end Sokoban.Prism
