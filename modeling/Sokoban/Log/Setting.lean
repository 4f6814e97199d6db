import Sokoban.Log

/-! # Log settings

A setting picks the records that are shown.  It is a list of directives, each with a threshold and,
perhaps, the beginning of the names of the speakers it is meant for.  Of the directives for a
speaker the one with the longest beginning decides.

A directive without a beginning is meant for all speakers, as every name begins with nothing, and
decides only where no other directive is for the speaker.
-/

namespace Sokoban.Log

/-- One directive: shows records up to a rank, of the speakers whose names begin so. -/
structure Directive where
  beginning : List Char
  rank : Nat
deriving DecidableEq, Repr

/-- The directives of a setting. -/
abbrev Setting := List Directive

namespace Setting

/-- The ranks by name, from nothing to everything. -/
def ranks : List (String × Nat) :=
  [("off", 0), ("error", 1), ("warn", 2), ("info", 3), ("debug", 4), ("trace", 5)]

/-- The rank that a threshold names, by a word in any case or by a digit.  No name at all is that
of errors. -/
def rank? (name : List Char) : Option Nat :=
  match name with
  | [] => some 1
  | [c] => if '0' ≤ c ∧ c ≤ '5' then some (c.toNat - '0'.toNat) else none
  | _ => ranks.lookup (String.ofList (name.map Char.toLower))

/-- Reads one directive: a threshold, a name with a threshold, or a name, which shows everything. -/
def directive? (text : List Char) : Option Directive :=
  match text.splitOn '=' with
  | [name] =>
    match rank? name with
    | some rank => some ⟨[], rank⟩
    | none => some ⟨name, 5⟩
  | [name, threshold] => (rank? threshold).map (⟨name, ·⟩)
  | _ => none

/-- Reads a setting.  Without directives it shows errors. -/
def ofText? (text : List Char) : Option Setting :=
  match (text.splitOn ',').filter (!·.isEmpty) with
  | [] => some [⟨[], 1⟩]
  | directives => directives.mapM directive?

/-- The directives for a speaker, and of these one with the longest beginning. -/
def directiveFor? (s : Setting) (speaker : Speaker) : Option Directive :=
  (s.filter fun d => d.beginning.isPrefixOf speaker.name.toList).foldl
    (fun best? d =>
      match best? with
      | some best => if best.beginning.length ≤ d.beginning.length then some d else some best
      | none => some d)
    none

/-- Whether a record is shown. -/
def shows (s : Setting) (r : Record) : Bool :=
  (s.directiveFor? r.speaker).any fun d => r.severity.rank ≤ d.rank

/-- Shows the records of every speaker up to a severity. -/
def upTo (severity : Severity) : Setting :=
  [⟨[], severity.rank⟩]

end Setting

end Sokoban.Log
