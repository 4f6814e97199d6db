import Sokoban.Binary64.Shortest

/-! # JSON

JSON values with the members of an object in the order in which they are written, and their texts: a
compact one, and one with a line for each element.

Both texts are written by one function, to which a `Layout` says what stands between elements.  A
text is written behind another, as it would be in a buffer.
-/

namespace Sokoban

/-- A JSON value. -/
inductive Json where
  | null
  | bool (value : Bool)
  | int (value : Int)
  /-- A number with a fraction, or one beyond the whole numbers in use. -/
  | real (negative : Bool) (magnitude : Binary64)
  | str (value : String)
  | arr (items : List Json)
  | obj (members : List (String × Json))
deriving Repr, Inhabited

namespace Json

/-- How a number with a fraction is laid out: from a hundred-thousandth up to sixteen digits before
the point it is written out. -/
def numberLayout : Binary64.Layout := ⟨-5, 15⟩

/-- The hexadecimal digits of a character code below 256. -/
def hexPair (code : Nat) : List Char :=
  [(code / 16).digitChar, (code % 16).digitChar]

/-- A character inside a string.  Quotes, backslashes and control characters are escaped. -/
def escape (c : Char) : List Char :=
  if c == '"' then "\\\"".toList
  else if c == '\\' then "\\\\".toList
  else if c == '\x08' then "\\b".toList
  else if c == '\t' then "\\t".toList
  else if c == '\n' then "\\n".toList
  else if c == '\x0c' then "\\f".toList
  else if c == '\r' then "\\r".toList
  else if c.toNat < 32 then "\\u00".toList ++ hexPair c.toNat
  else [c]

/-- A string in quotes. -/
def quote (s : String) : String :=
  "\"" ++ String.ofList (s.toList.flatMap escape) ++ "\""

/-- What a text has between the elements of a value. -/
structure Layout where
  /-- What stands before an element and before a closing bracket, by depth. -/
  newline : Nat → String
  /-- What stands between a member's name and its value. -/
  colon : String

/-- Nothing between elements. -/
def Layout.compact : Layout := ⟨fun _ => "", ":"⟩

/-- A line for each element, set in by two spaces a level. -/
def Layout.lines : Layout :=
  ⟨fun depth => String.ofList ('\n' :: List.replicate (2 * depth) ' '), ": "⟩

mutual

/-- Writes a value behind a text. -/
def write (layout : Layout) (depth : Nat) (text : String) : Json → String
  | null => text ++ "null"
  | bool value => text ++ if value then "true" else "false"
  | int value => text ++ toString value
  | real negative magnitude =>
    text ++ (if negative then "-" else "") ++ String.ofList (magnitude.toText numberLayout)
  | str value => text ++ quote value
  | arr [] => text ++ "[]"
  | arr (item :: rest) =>
    let text := write layout (depth + 1) (text ++ "[" ++ layout.newline (depth + 1)) item
    writeItems layout (depth + 1) text rest ++ layout.newline depth ++ "]"
  | obj [] => text ++ "\x7b\x7d"
  | obj ((name, value) :: rest) =>
    let text := text ++ "\x7b" ++ layout.newline (depth + 1) ++ quote name ++ layout.colon
    let text := write layout (depth + 1) text value
    writeMembers layout (depth + 1) text rest ++ layout.newline depth ++ "\x7d"

/-- Writes the items of an array after the first. -/
def writeItems (layout : Layout) (depth : Nat) (text : String) : List Json → String
  | [] => text
  | item :: rest =>
    let text := write layout depth (text ++ "," ++ layout.newline depth) item
    writeItems layout depth text rest

/-- Writes the members of an object after the first. -/
def writeMembers (layout : Layout) (depth : Nat) (text : String) : List (String × Json) → String
  | [] => text
  | (name, value) :: rest =>
    let text := text ++ "," ++ layout.newline depth ++ quote name ++ layout.colon
    let text := write layout depth text value
    writeMembers layout depth text rest

end

/-- The compact text of a value. -/
def compact (v : Json) : String :=
  v.write .compact 0 ""

/-- The text of a value with a line for each element. -/
def pretty (v : Json) : String :=
  v.write .lines 0 ""

end Json

end Sokoban
