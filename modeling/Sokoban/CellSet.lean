/-! # Sets of board cells

A `CellSet` keeps one bit per cell in a growing array of 64-bit words, beside the number of its
members.  Cells are read off in ascending order, so the first and the last member bound every
position on the board.

Two sets are equal when their words are: a set made with room for more cells than it holds has
more words than one that grew cell by cell.
-/

namespace Sokoban

/-- A set of cells: bit `c % 64` of word `c / 64` says whether cell `c` is a member. -/
structure CellSet where
  /-- The membership bits, sixty-four cells a word. -/
  words : Array (BitVec 64)
  /-- The number of members. -/
  size : Nat
deriving DecidableEq, Repr

namespace CellSet

/-- The set without cells and without words. -/
def empty : CellSet := ⟨#[], 0⟩

/-- The empty set with words for the cells below `cells`. -/
def withCapacity (cells : Nat) : CellSet :=
  ⟨Array.replicate ((cells + 63) / 64) 0, 0⟩

/-- Whether `cell` is a member; cells past the last word are not. -/
def contains (s : CellSet) (cell : Nat) : Bool :=
  (s.words.getD (cell / 64) 0).getLsbD (cell % 64)

/-- The words, followed by as many empty ones as are missing to hold `count` of them. -/
def padded (words : Array (BitVec 64)) (count : Nat) : Array (BitVec 64) :=
  words ++ Array.replicate (count - words.size) 0

/-- Adds `cell` and tells whether it was absent.  The words grow to the one that holds `cell`. -/
def add (s : CellSet) (cell : Nat) : Bool × CellSet :=
  if s.contains cell then
    (false, s)
  else
    let words := padded s.words (cell / 64 + 1)
    (true, ⟨words.modify (cell / 64) (· ||| BitVec.twoPow 64 (cell % 64)), s.size + 1⟩)

/-- The set with `cell` added. -/
def insert (s : CellSet) (cell : Nat) : CellSet :=
  (s.add cell).2

/-- The set of the listed cells. -/
def ofList (cells : List Nat) : CellSet :=
  cells.foldl insert empty

/-- Whether there are no members. -/
def isEmpty (s : CellSet) : Bool :=
  s.size == 0

/-- The positions of the set bits of a word, ascending. -/
def bits (word : BitVec 64) : List Nat :=
  (List.range 64).filter word.getLsbD

/-- The members that the word number `index` holds, ascending. -/
def cellsOfWord (word : BitVec 64) (index : Nat) : List Nat :=
  (bits word).map (64 * index + ·)

/-- The members in ascending order. -/
def toList (s : CellSet) : List Nat :=
  s.words.toList.zipIdx.flatMap fun (word, index) => cellsOfWord word index

/-- The smallest member: the lowest bit of the first word that has one. -/
def first? (s : CellSet) : Option Nat :=
  s.words.toList.zipIdx.findSome? fun (word, index) => (cellsOfWord word index).head?

/-- The largest member: the highest bit of the last word that has one. -/
def last? (s : CellSet) : Option Nat :=
  s.words.toList.zipIdx.reverse.findSome? fun (word, index) => (cellsOfWord word index).getLast?

end CellSet

end Sokoban
