import Sokoban.Power

/-! # Run-length encoding

In an encoded line a run of digits repeats what follows it, either one character (`3#` is `###`)
or a group in brackets (`2(#-)` is `#-#-`), and groups nest.  A group without a count stands once;
a count with nothing to repeat, before a closing bracket or at the end, says nothing.

A line is decoded from left to right.  What has been written at each open level waits on a stack,
so the decoder is one pass over the characters.  An item that is counted or bracketed has to fit
into the level it is written to; a plain character always does.
-/

namespace Sokoban.RunLength

/-- Why a line cannot be decoded; columns count characters from zero. -/
inductive Fault where
  /-- A bracket is opened and never closed. -/
  | unbalancedGroup (column : Nat)
  /-- A bracket is closed and was not opened. -/
  | unexpectedClose (column : Nat)
  /-- The item whose count or bracket stands here is far longer than any board. -/
  | countTooLarge (column : Nat)
deriving DecidableEq, Repr

namespace Fault

/-- Where the fault is. -/
def column : Fault → Nat
  | unbalancedGroup column | unexpectedClose column | countTooLarge column => column

/-- The wording of a fault. -/
def message : Fault → String
  | unbalancedGroup column => s!"unbalanced group opened at column {column}"
  | unexpectedClose column => s!"unexpected ')' at column {column}"
  | countTooLarge column => s!"repeat count at column {column} expands the line too far"

end Fault

/-- The most bytes that a level may hold after a counted or bracketed item, in UTF-8. -/
def maxBytes : Nat := 65536

/-- The largest count; larger ones are read as this one. -/
def maxCount : Nat := twoPow 64 - 1

/-- The count so far and the column of its first digit. -/
structure Count where
  column : Nat
  value : Nat
deriving DecidableEq, Repr

/-- What has been written at one level: the characters, last one first, and their bytes. -/
structure Written where
  reversed : List Char
  bytes : Nat
deriving DecidableEq, Repr

namespace Written

/-- Nothing. -/
def empty : Written := ⟨[], 0⟩

/-- One character. -/
def single (c : Char) : Written := ⟨[c], c.utf8Size⟩

/-- Several copies of the same. -/
def times (w : Written) (count : Nat) : Written :=
  if w.reversed.isEmpty then empty
  else ⟨(List.replicate count w.reversed).flatten, count * w.bytes⟩

/-- One piece and then another. -/
def append (w item : Written) : Written :=
  ⟨item.reversed ++ w.reversed, w.bytes + item.bytes⟩

/-- The characters in reading order. -/
def toList (w : Written) : List Char := w.reversed.reverse

end Written

/-- A group that has been opened: what was written before it, and how often it is repeated. -/
structure Group where
  column : Nat
  count? : Option Count
  before : Written
deriving DecidableEq, Repr

/-- Where the decoder stands: the open groups, innermost first, what has been written inside the
innermost one, and the count that waits for something to repeat. -/
structure State where
  groups : List Group
  written : Written
  count? : Option Count
deriving DecidableEq, Repr

/-- The state before the first character. -/
def State.initial : State := ⟨[], .empty, none⟩

/-- The value of an ASCII digit. -/
def digit? (c : Char) : Option Nat :=
  if '0' ≤ c ∧ c ≤ '9' then some (c.toNat - '0'.toNat) else none

/-- The count after one more digit, which stands in `column`. -/
def Count.next (count? : Option Count) (column digit : Nat) : Count :=
  match count? with
  | none => ⟨column, digit⟩
  | some count => ⟨count.column, min (count.value * 10 + digit) maxCount⟩

/-- Writes `count` copies of an item behind what is there, if they fit. -/
def write (written item : Written) (count column : Nat) : Except Fault Written :=
  if written.bytes + count * item.bytes ≤ maxBytes then
    .ok (written.append (item.times count))
  else
    .error (.countTooLarge column)

/-- Closes the innermost group at `column`. -/
def close (s : State) (column : Nat) : Except Fault State :=
  match s.groups with
  | [] => .error (.unexpectedClose column)
  | group :: outer =>
    let count := group.count?.getD ⟨group.column, 1⟩
    (write group.before s.written count.value count.column).map fun written =>
      ⟨outer, written, none⟩

/-- Reads one character, which stands in `column`. -/
def step (s : State) (column : Nat) (c : Char) : Except Fault State :=
  if c = '(' then
    .ok ⟨⟨column, s.count?, s.written⟩ :: s.groups, .empty, none⟩
  else if c = ')' then
    close s column
  else
    match digit? c with
    | some digit => .ok { s with count? := some (Count.next s.count? column digit) }
    | none =>
      match s.count? with
      | none => .ok { s with written := s.written.append (.single c) }
      | some count =>
        (write s.written (.single c) count.value count.column).map fun written =>
          { s with written, count? := none }

/-- Reads the characters from `column` on. -/
def run : State → Nat → List Char → Except Fault State
  | s, _, [] => .ok s
  | s, column, c :: rest =>
    match step s column c with
    | .ok s => run s (column + 1) rest
    | .error fault => .error fault

/-- What has been written once the line is over. -/
def State.finish (s : State) : Except Fault (List Char) :=
  match s.groups with
  | [] => .ok s.written.toList
  | group :: _ => .error (.unbalancedGroup group.column)

/-- The text that an encoded line stands for. -/
def decode (text : List Char) : Except Fault (List Char) :=
  match run .initial 0 text with
  | .ok s => s.finish
  | .error fault => .error fault

end Sokoban.RunLength
