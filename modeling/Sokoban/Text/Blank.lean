/-! # White space and lines

Texts are lists of characters.  A blank is a character with the Unicode property White_Space; a line
ends at a line feed, and a carriage return in front of that line feed belongs to the ending.

What stands behind the last line feed is a line if there is anything.  It has no ending, so a
carriage return at its end belongs to the line.
-/

namespace Sokoban.Text

/-- The characters with the Unicode property White_Space. -/
def isBlank (c : Char) : Bool :=
  ('\t' ≤ c && c ≤ '\r') || c == ' ' || c == '\u0085' || c == '\u00a0' || c == '\u1680' ||
    ('\u2000' ≤ c && c ≤ '\u200a') || c == '\u2028' || c == '\u2029' || c == '\u202f' ||
    c == '\u205f' || c == '\u3000'

/-- The text without the characters of a kind at its end. -/
def dropEndWhile (p : Char → Bool) (text : List Char) : List Char :=
  (text.reverse.dropWhile p).reverse

/-- The text without the characters of a kind at both ends. -/
def stripWhile (p : Char → Bool) (text : List Char) : List Char :=
  dropEndWhile p (text.dropWhile p)

/-- The text without blanks at both ends. -/
def strip (text : List Char) : List Char :=
  stripWhile isBlank text

/-- The text without one carriage return at its end. -/
def dropReturn (line : List Char) : List Char :=
  if line.getLast? = some '\r' then line.dropLast else line

/-- Splits a text into lines.  Text after the last line feed is a line if there is any, and keeps
its carriage return. -/
def lines (text : List Char) : List (List Char) :=
  let pieces := text.splitOn '\n'
  let ended := pieces.dropLast.map dropReturn
  match pieces.getLast? with
  | none => []
  | some rest => if rest.isEmpty then ended else ended ++ [rest]

end Sokoban.Text
