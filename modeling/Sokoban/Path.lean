/-! # Paths

A path is a text of names between slashes.  Slashes at its end, repeated slashes and names that are
a single dot stand for nothing, except for a single dot at the very beginning.  Where a path is
taken apart, the part that is kept stays as it was written.
-/

namespace Sokoban

/-- A path, as it is written. -/
structure Path where
  chars : List Char
deriving DecidableEq, Repr

namespace Path

/-- The path that a text writes. -/
def ofString (s : String) : Path := ⟨s.toList⟩

/-- The text of a path. -/
def toString (p : Path) : String := .ofList p.chars

/-- What a path begins with, a slash or a dot, and the rest.  A dot counts only where it is a name
of its own. -/
def splitLead : List Char → List Char × List Char
  | '/' :: rest => (['/'], rest)
  | ['.'] => (['.'], [])
  | '.' :: '/' :: rest => (['.'], '/' :: rest)
  | chars => ([], chars)

/-- Whether a name between slashes stands for nothing. -/
def isVoid (name : List Char) : Bool :=
  name.isEmpty || name == ['.']

/-- Names without those at the end that stand for nothing. -/
def trimNames (names : List (List Char)) : List (List Char) :=
  (names.reverse.dropWhile isVoid).reverse

/-- The names after the lead, up to the last that stands for something. -/
def names (p : Path) : List (List Char) :=
  trimNames ((splitLead p.chars).2.splitOn '/')

/-- The last name, unless it stands for the folder above. -/
def fileName? (p : Path) : Option (List Char) :=
  p.names.getLast?.filter (· ≠ ['.', '.'])

/-- The path without its last name.  A path of nothing but a dot has the empty path above it. -/
def parent? (p : Path) : Option Path :=
  let lead := (splitLead p.chars).1
  if p.names.isEmpty then
    if lead = ['.'] then some ⟨[]⟩ else none
  else
    some ⟨lead ++ ['/'].intercalate (trimNames p.names.dropLast)⟩

/-- The path with another last name, or with one more name if it has no last name. -/
def withFileName (p : Path) (name : List Char) : Path :=
  let folder := if p.fileName?.isSome then (p.parent?.getD ⟨[]⟩).chars else p.chars
  let slash := if folder.isEmpty || folder.getLast? = some '/' then [] else ['/']
  ⟨folder ++ slash ++ name⟩

/-- The stem of a file name and its extension, which follows the last dot.  A dot that nothing
stands before begins no extension. -/
def splitExtension (name : List Char) : List Char × Option (List Char) :=
  let extension := (name.reverse.takeWhile (· ≠ '.')).reverse
  let stem := name.take (name.length - extension.length - 1)
  if stem.isEmpty || !name.contains '.' then (name, none) else (stem, some extension)

/-- The path with a number behind the stem of its file name: `out/model.jani` becomes
`out/model_3.jani`. -/
def indexed (p : Path) (index : Nat) : Path :=
  let (stem, extension?) := splitExtension (p.fileName?.getD [])
  let ending := (extension?.map ('.' :: ·)).getD []
  p.withFileName (stem ++ '_' :: Nat.toDigits 10 index ++ ending)

/-- The path and the paths above it, as many as there is fuel for. -/
def chain : Nat → Path → List Path
  | 0, p => [p]
  | fuel + 1, p =>
    match p.parent? with
    | some above => p :: chain fuel above
    | none => [p]

/-- The path and all the paths above it.  Each is shorter than the one before. -/
def ancestors (p : Path) : List Path :=
  chain p.chars.length p

end Path

end Sokoban
