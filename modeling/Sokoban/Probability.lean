import Sokoban.Decimal.Text
import Sokoban.Direction
import Sokoban.Text.Blank

/-! # Probability maps

A probability map weighs the four directions and the drift of a box.  Weights are given in any
scale and are divided by their total; a map is written and read as a list like `u=0.4,d=0.6`.

`exactShares` divides weights so that the shares sum to exactly one: the last share is what the
others leave over.
-/

namespace Sokoban

/-- What a weight is for. -/
inductive Label where
  | toward (dir : Direction)
  /-- A box slides by itself. -/
  | drift
deriving DecidableEq, Repr

namespace Label

/-- Every label, in the order in which weights are added and written. -/
def all : List Label :=
  Direction.all.map toward ++ [drift]

/-- The letter of a label. -/
def key : Label → Char
  | toward .up => 'u'
  | toward .down => 'd'
  | toward .left => 'l'
  | toward .right => 'r'
  | drift => 'b'

/-- The label with this letter. -/
def ofKey? (key : Char) : Option Label :=
  all.find? (·.key == key)

end Label

/-- Why weights make no probability map, or a number is no probability. -/
inductive ProbabilityError where
  /-- An item without an equals sign. -/
  | malformed (item : String)
  /-- An item for none of the labels. -/
  | unknownKey (item : String)
  /-- A second item for a label. -/
  | duplicateKey (key : Char)
  /-- An item whose weight is no decimal. -/
  | invalidValue (item : String)
  /-- An item whose weight is below nought. -/
  | negative (item : String)
  /-- No weight is above nought. -/
  | zeroSum
  /-- A success probability that is none. -/
  | muOutOfRange (mu : String)
  /-- The weights are too large to be added or divided. -/
  | arithmetic (cause : Decimal.Fault)
deriving DecidableEq, Repr

/-- The wording of an error. -/
def ProbabilityError.message : ProbabilityError → String
  | .malformed item => s!"invalid probability '{item}': expected <key>=<value>"
  | .unknownKey item => s!"invalid probability '{item}': unknown key, expected one of u, d, l, r, b"
  | .duplicateKey key => s!"probability with key '{key}' defined multiple times"
  | .invalidValue item => s!"invalid probability '{item}': value is not a decimal number"
  | .negative item => s!"invalid probability '{item}': value is negative"
  | .zeroSum => "probabilities sum to zero"
  | .muOutOfRange mu => s!"mu must lie in [0, 1], got {mu}"
  | .arithmetic cause => cause.message

/-- A weight for every label. -/
structure ProbabilityMap where
  weight : Label → Decimal

namespace ProbabilityMap

/-- The same weight for each direction and none for drift. -/
def uniform : ProbabilityMap :=
  ⟨fun
    | .toward _ => .quarter
    | .drift => .zero⟩

/-- The weight of a direction. -/
def toward (map : ProbabilityMap) (dir : Direction) : Decimal :=
  map.weight (.toward dir)

/-- The weight of drift. -/
def drift (map : ProbabilityMap) : Decimal :=
  map.weight .drift

/-- Five decimals, one a label in the order of `Label.all`. -/
abbrev Weights := List (Label × Decimal)

/-- The weight that a list has for a label, nought if it has none. -/
def lookup (weights : Weights) (label : Label) : Decimal :=
  ((weights.find? (·.1 == label)).map (·.2)).getD .zero

/-- Adds an entry to the weight of its label. -/
def addEntry (weights : Weights) (entry : Label × Decimal) : Except ProbabilityError Weights :=
  if entry.2.isNegative then
    .error (.negative s!"{entry.1.key}={entry.2.toText}")
  else
    weights.mapM fun (label, weight) =>
      if label = entry.1 then
        ((weight.add entry.2).map (label, ·)).mapError .arithmetic
      else
        .ok (label, weight)

/-- The map of the entries, scaled so that they sum to one.  Weights of the same label add up. -/
def ofEntries (entries : List (Label × Decimal)) : Except ProbabilityError ProbabilityMap := do
  let weights ← entries.foldlM addEntry (Label.all.map (·, .zero))
  let total ← (Decimal.sum (weights.map (·.2))).mapError .arithmetic
  if total.isZero then
    throw .zeroSum
  let scaled ← weights.mapM fun (label, weight) =>
    ((weight.div total).map (label, ·)).mapError .arithmetic
  return ⟨lookup scaled⟩

/-! ## Text -/

/-- The key of an item and what follows its equals sign. -/
def splitItem? (item : List Char) : Option (List Char × List Char) :=
  match item.dropWhile (· != '=') with
  | [] => none
  | _ :: value => some (item.takeWhile (· != '='), value)

/-- The label that a key names, in either case.  No letter outside ASCII is a case of one of the
five letters. -/
def labelOfKey? (key : List Char) : Option Label :=
  match Text.strip key with
  | [c] => Label.ofKey? c.toLower
  | _ => none

/-- The entry of an item, where the labels of the items before it are known. -/
def entryOfItem (seen : List Label) (item : List Char) :
    Except ProbabilityError (Label × Decimal) :=
  match splitItem? item with
  | none => .error (.malformed (.ofList item))
  | some (key, value) =>
    match labelOfKey? key with
    | none => .error (.unknownKey (.ofList item))
    | some label =>
      if seen.contains label then
        .error (.duplicateKey label.key)
      else
        match Decimal.ofText? (Text.strip value) with
        | none => .error (.invalidValue (.ofList item))
        | some weight =>
          if weight.isNegative then .error (.negative (.ofList item)) else .ok (label, weight)

/-- The entries of the items, up to the first that is in error. -/
def entriesOfItems (seen : List Label) : List (List Char) →
    Except ProbabilityError (List (Label × Decimal))
  | [] => .ok []
  | item :: rest => do
    let entry ← entryOfItem seen item
    return entry :: (← entriesOfItems (entry.1 :: seen) rest)

/-- The items of a text: what stands between commas, without blanks around it, if it is not
empty. -/
def items (text : List Char) : List (List Char) :=
  ((text.splitOn ',').map Text.strip).filter (!·.isEmpty)

/-- Reads a map. -/
def ofText (text : List Char) : Except ProbabilityError ProbabilityMap := do
  ofEntries (← entriesOfItems [] (items text))

/-- Writes a map, with every label. -/
def toText (map : ProbabilityMap) : String :=
  ",".intercalate <| Label.all.map fun label =>
    s!"{label.key}=" ++ (map.weight label).normalize.toText

end ProbabilityMap

/-- Divides weights by their total; the last share is one less the others, so that the shares sum
to exactly one.  There are no shares of nothing. -/
def exactShares (weights : List Decimal) : Except Decimal.Fault (Option (List Decimal)) := do
  let total ← Decimal.sum weights
  if total.isZero then
    return none
  let shares ← weights.mapM (·.div total)
  let others := shares.dropLast
  let last ← Decimal.one.sub (← Decimal.sum others)
  return some (others ++ [last])

end Sokoban
